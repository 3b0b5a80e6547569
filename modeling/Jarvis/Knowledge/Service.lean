import Jarvis.Knowledge.Retrieval
import Jarvis.Pool

/-!
# The knowledge service: calls

A call is checked, and then makes its queries, each of them atomic, to the graph and to the vectors;
calls run at the same time, query by query (`Pool`). Source:
`services/knowledge/src/jarvis_knowledge/service.py`. A call that fails is given up between two
queries; how long a call took is left out of its reply.
-/

namespace Jarvis.Knowledge

open Pool
open Text (ofString)

structure Stores where
  graph : Graph := {}
  points : Points := []
  deriving DecidableEq

/-! ### Requests -/

/-- Source: `knowledge.proto` `RetrieveRequest` -/
structure RetrieveRequest where
  tenantId : Text
  userId : Text
  query : Text
  tokenBudget : ℤ
  maxHops : Option ℤ
  sourceKinds : List Text
  deriving DecidableEq

inductive Request where
  | upsertKnowledge (req : UpsertKnowledgeRequest)
  | retrieve (req : RetrieveRequest)
  | getEntity (tenantId userId : Text) (scope : Scope) (key : Text) (relationLimit : ℤ)
  | deleteSource (tenantId userId : Text) (scope : Scope) (sourceId : Text)
  | deleteEntity (tenantId userId : Text) (scope : Scope) (key : Text)
  | deleteUserKnowledge (tenantId userId : Text)
  deriving DecidableEq

/-- A request, and the clock when the graph is written. -/
structure Call where
  request : Request
  now : Time
  deriving DecidableEq

inductive Reply where
  | upserted (entities relations passages : ℕ)
  | retrieved (r : Retrieval)
  | entity (e : StoredEntity) (relations : List StoredRelation)
  | entityNotFound
  | sourceDeleted (passages relations entities : ℕ)
  | entityDeleted (relations : ℕ)
  | userDeleted (passages entities relations : ℕ)
  | raised (e : Raised)
  deriving DecidableEq

/-- What a search starts with. -/
structure Query where
  reader : Reader
  query : Text
  budget : ℕ
  hops : ℕ
  sourceKinds : List Text
  deriving DecidableEq

/-- Source: `Retrieve` (the checks) -/
def parseRetrieve (L : Library) (req : RetrieveRequest) : Except Raised Query := do
  let reader ← parseReader L req.tenantId req.userId
  let query ← cleanText req.query "query" maxQuery true
  let budget := if req.tokenBudget ≠ 0 then req.tokenBudget else defaultTokenBudget
  ensure (50 ≤ budget ∧ budget ≤ 8000) (invalid "token_budget must be between 50 and 8000")
  let hops := req.maxHops.getD 1
  ensure (0 ≤ hops ∧ hops ≤ 2) (invalid "max_hops must be 0, 1 or 2")
  ensure (req.sourceKinds.length ≤ 16) (invalid "at most 16 source_kinds")
  let kinds ← req.sourceKinds.mapM fun k =>
    (parseSource L { id := ofString "x", kind := k }).map (·.kind)
  pure { reader, query, budget := budget.toNat, hops := hops.toNat, sourceKinds := kinds }

/-- Source: `_source_id` -/
def parseSourceId (value : Text) : Except Raised Text := do
  ensure (printableAscii value 1 128 = true)
    (invalid "source_id must be 1 to 128 printable ASCII characters")
  pure value

/-! ### How far a call has come -/

inductive Local where
  | raising (e : Raised)
  /-- `UpsertKnowledge` -/
  | upsertGraph (u : Upsert)
  | upsertEntities (u : Upsert) (stored : List StoredEntity) (relations : ℕ)
  | upsertPassages (u : Upsert) (stored : List StoredEntity) (relations : ℕ)
  /-- `DeleteSource` -/
  | countSource (owner : Owner) (sourceId : Text)
  | deleteSource (owner : Owner) (sourceId : Text) (passages : ℕ)
  | forgetSource (owner : Owner) (sourceId : Text) (passages : ℕ)
  /-- The points of entities are deleted, and the reply is given. -/
  | deletePoints (owner : Owner) (keys : List Text) (reply : Reply)
  /-- `DeleteEntity` -/
  | deleteEntity (owner : Owner) (key : Text)
  /-- `DeleteUserKnowledge` -/
  | countOwner (owner : Owner)
  | findNodes (owner : Owner) (count : ℕ × ℕ)
  | deleteNodes (owner : Owner) (count : ℕ × ℕ) (found : List NodeId)
  | countPoints (owner : Owner) (count : ℕ × ℕ)
  | deleteOwner (owner : Owner) (count : ℕ × ℕ) (passages : ℕ)
  /-- `Retrieve` -/
  | search (q : Query)
  | expand (q : Query) (kept : List PassageHit) (top : Scores) (hop : ℕ) (relations : List Found)
      (frontier : Scores)
  | loadEntities (q : Query) (kept : List PassageHit) (top : Scores) (relations : List Found)
  /-- `GetEntity` -/
  | getEntity (owner : Owner) (key : Text) (limit : ℕ)
  | getRelations (owner : Owner) (key : Text) (limit : ℕ) (e : StoredEntity)

/-- What a request comes to when it is checked. -/
def plan (L : Library) : Request → Except Raised Local
  | .upsertKnowledge req => do return .upsertGraph (← parseUpsert L req)
  | .retrieve req => do return .search (← parseRetrieve L req)
  | .getEntity tenantId userId scope key relationLimit => do
      let owner ← parseOwner L tenantId userId scope
      let key ← parseKey L key
      let limit := if relationLimit ≠ 0 then relationLimit else 100
      ensure (1 ≤ limit ∧ limit ≤ 500) (invalid "relation_limit must be between 1 and 500")
      return .getEntity owner key limit.toNat
  | .deleteSource tenantId userId scope sourceId => do
      let owner ← parseOwner L tenantId userId scope
      return .countSource owner (← parseSourceId sourceId)
  | .deleteEntity tenantId userId scope key => do
      let owner ← parseOwner L tenantId userId scope
      return .deleteEntity owner (← parseKey L key)
  | .deleteUserKnowledge tenantId userId => do
      let tenant ← parseTenant L tenantId
      return .countOwner ⟨tenant, ownerOf (← parseUser userId)⟩

/-- A call begins. -/
def enter (L : Library) (c : Call) : Local :=
  match plan L c.request with
  | .ok t => t
  | .error e => .raising e

/-- After `select`, and after each hop: the next hop, or the entities. Source: `retrieve` (the
loop) -/
def nextHop (q : Query) (kept : List PassageHit) (top : Scores) (hop : ℕ) (relations : List Found)
    (frontier : Scores) : Local :=
  if hop ≤ q.hops ∧ frontier ≠ [] then .expand q kept top hop relations frontier
  else .loadEntities q kept top relations

/-- One query of a call. -/
def next (c : Config) (s : Stores) (now : Time) : Local → Outcome Stores Local Reply
  | .raising e => .done s (.raised e)
  | .upsertGraph u =>
    let (graph, stored, relations) :=
      s.graph.upsert c.rounding u.owner u.source.id now u.entities u.relations
    .more { s with graph } (.upsertEntities u stored relations)
  | .upsertEntities u stored relations =>
    let points := upsertPoints (stored.map (entityPoint c.library u.owner)) s.points
    .more { s with points } (.upsertPassages u stored relations)
  | .upsertPassages u stored relations =>
    let points := upsertPoints (u.passages.map (passagePoint c.library u.owner u.source)) s.points
    .done { s with points } (.upserted stored.length relations u.passages.length)
  | .countSource owner sourceId =>
    let passages := s.points.countP (Point.isPassageOf owner sourceId)
    if passages = 0 then .more s (.forgetSource owner sourceId 0)
    else .more s (.deleteSource owner sourceId passages)
  | .deleteSource owner sourceId passages =>
    .more { s with points := Table.delete (Point.isPassageOf owner sourceId) s.points }
      (.forgetSource owner sourceId passages)
  | .forgetSource owner sourceId passages =>
    let (graph, relations, keys) := s.graph.forgetSource owner sourceId
    .more { s with graph }
      (.deletePoints owner keys (.sourceDeleted passages relations keys.length))
  | .deletePoints owner keys reply =>
    .done { s with points := deleteEntityPoints c.library owner keys s.points } reply
  | .deleteEntity owner key =>
    let (graph, relations) := s.graph.deleteEntity owner key
    .more { s with graph } (.deletePoints owner [key] (.entityDeleted (relations.getD 0)))
  | .countOwner owner => .more s (.findNodes owner (s.graph.countOwner owner))
  | .findNodes owner count => .more s (.deleteNodes owner count
      ((s.graph.nodes.filter fun n => n.owner = owner).map Node.id))
  | .deleteNodes owner count found =>
    if found = [] then .more s (.countPoints owner count)
    else .more { s with graph := s.graph.detachDelete fun n => n.id ∈ found.take deleteRows }
      (.deleteNodes owner count (found.drop deleteRows))
  | .countPoints owner count =>
    .more s (.deleteOwner owner count (s.points.countP fun p => p.owner = owner && p.isPassage))
  | .deleteOwner owner count passages =>
    .done { s with points := Table.delete (fun p => p.owner = owner) s.points }
      (.userDeleted passages count.1 count.2)
  | .search q =>
    let (passages, similar, named) := Knowledge.search c.nearest q.reader q.query passageCandidates
      entityCandidates q.sourceKinds (nameCandidates c.library.toUnicode q.query 4) s.points
    let (kept, top) := select c passages similar named
    .more s (nextHop q kept top 1 [] top)
  | .expand q kept top hop relations frontier =>
    let found := s.graph.expand q.reader (frontier.map Prod.fst) (fanout hop)
    let (relations, frontier) := afterHop c top frontier hop relations found
    .more s (nextHop q kept top (hop + 1) relations frontier)
  | .loadEntities q kept top relations =>
    let stored := s.graph.entities q.reader.tenant q.reader.owners (top.map Prod.fst)
    .done s (.retrieved (finish c kept top relations stored q.budget))
  | .getEntity owner key limit =>
    match s.graph.entities owner.tenant [owner.value] [(owner.value, key)] with
    | [] => .done s .entityNotFound
    | e :: _ => .more s (.getRelations owner key limit e)
  | .getRelations owner key limit e => .done s (.entity e (s.graph.relationsOf owner key limit))

/-- The service: nothing is locked, and nothing else happens to the stores. -/
def service (c : Config) : System Stores Call Local Reply Unit Empty where
  enter := enter c.library
  next s call t _ _ := some (next c s call.now t)
  env := nofun

/-! ### A service that can be evaluated -/

/-- Two tenants. -/
def northTenant : Text := ofString "01234567-89ab-4cde-8f01-23456789abcd"
def southTenant : Text := ofString "fedcba98-7654-4321-8fed-cba987654321"

/-- The letters and digits of ASCII, exact arithmetic, and points found in the order they are in. -/
def plain : Config where
  library := {
    casefold := fun s => s.map fun c => if Text.isUpper c then c + 0x20 else c
    nfkd := id
    nfkc := id
    combining := fun _ => false
    isWord := fun c => Text.isUpper c || Text.isLower c || Text.isDigit c || c = 0x5f
    repr := id
    uuid := fun s => if s = northTenant then some 1 else if s = southTenant then some 2 else none
    uuidText := fun n => if n = 1 then northTenant else southTenant
    uuid5 := id
    sha256 := fun _ => List.replicate 64 0x61
    urlScheme := fun _ => none }
  rounding := {
    add := exactly (· + ·)
    sub := exactly (· - ·)
    mul := exactly (· * ·)
    single := id }
  nearest := fun _ points n => (points.take n).map fun p => (p, .fin 1)
  isoDate := fun _ => ofString "2026-01-02"
  minScore := .fin (1 / 2)
  margin := .fin (1 / 10)
where
  exactly (f : ℚ → ℚ → ℚ) : Flt → Flt → Flt
    | .fin a, .fin b => .fin (f a b)
    | _, _ => .nan

def maria : EntityRef := ⟨ofString "Person", ofString "Maria"⟩
/-- A call on behalf of the user `ann`. -/
def annUpserts (source : String) (relations : List RelationInput)
    (passages : List PassageInput) : Call where
  now := 0
  request := .upsertKnowledge {
    tenantId := northTenant
    userId := ofString "ann"
    scope := .user
    source := some { id := ofString source, kind := ofString "note" }
    entities := [{ type := maria.type, name := maria.name }]
    relations, passages }

def annDeletes (source : String) : Call where
  now := 0
  request := .deleteSource northTenant (ofString "ann") .user (ofString source)

def annOwner : Owner := ⟨northTenant, ofString "u:ann"⟩

end Jarvis.Knowledge
