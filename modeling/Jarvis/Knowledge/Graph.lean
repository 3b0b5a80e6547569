import Jarvis.Knowledge.Model

/-!
# The knowledge service: the graph

The nodes and relationships in Neo4j, and the queries of
`services/knowledge/src/jarvis_knowledge/graph.py`, each as a function on them. The constraint on
`(tenant, owner, key)` makes these three the identity of a node; a relationship is told apart by its
ends and its type, because it is only ever merged. Creation times are stored and never read, and are
left out.
-/

namespace Jarvis.Knowledge

/-- What tells nodes apart. -/
structure NodeId where
  owner : Owner
  key : Text
  deriving DecidableEq

/-- Source: `(:Entity {…})` -/
structure Node where
  owner : Owner
  key : Text
  type : Text
  name : Text
  aliases : List Text
  description : Text
  sources : List Text
  updated : Time
  deriving DecidableEq

def Node.id (n : Node) : NodeId := ⟨n.owner, n.key⟩

/-- Source: `[:RELATES_TO {…}]` -/
structure Edge where
  source : NodeId
  type : Text
  target : NodeId
  owner : Owner
  fact : Text
  weight : Flt
  sources : List Text
  updated : Time
  deriving DecidableEq

def Edge.id (x : Edge) : NodeId × Text × NodeId := (x.source, x.type, x.target)

/-- Whether the relationship is one of the node, in either direction. -/
def Edge.touches (x : Edge) (id : NodeId) : Bool := x.source = id || x.target = id

structure Graph where
  nodes : List Node := []
  edges : List Edge := []
  deriving DecidableEq

/-! ### Upsert -/

/-- The last `n` of a list: `[-n..]` -/
def lastN {α : Type} (n : ℕ) (l : List α) : List α := l.drop (l.length - n)

/-- A source is added, unless it is there. -/
def addSource (source : Text) (sources : List Text) : List Text :=
  if source ∈ sources then sources else lastN maxStoredSources (sources ++ [source])

/-- The aliases without the name and without repetition. -/
def mergeAliases (name : Text) (aliases : List Text) : List Text :=
  (aliases.foldl (fun acc a => if a ∈ acc ∨ a = name then acc else acc ++ [a]) []).take
    maxStoredAliases

/-- Source: `_UPSERT_ENTITIES` (`ON CREATE SET`) -/
def Node.create (owner : Owner) (now : Time) (e : EntityWrite) : Node where
  owner := owner
  key := e.key
  type := e.type
  name := e.name
  aliases := []
  description := []
  sources := []
  updated := now

/-- Source: `_UPSERT_ENTITIES` (`SET`) -/
def Node.merge (source : Text) (now : Time) (e : EntityWrite) (n : Node) : Node :=
  let name := if e.explicit then e.name else n.name
  { n with
    name := name
    aliases := mergeAliases name (n.aliases ++ e.aliases)
    description := if e.description ≠ [] then e.description else n.description
    sources := addSource source n.sources
    updated := now }

/-- Source: `_UPSERT_ENTITIES`, one row -/
def mergeEntity (owner : Owner) (source : Text) (now : Time) (nodes : List Node) (e : EntityWrite) :
    List Node :=
  if (Table.row Node.id ⟨owner, e.key⟩ nodes).isSome then
    Table.set (fun n => n.id = ⟨owner, e.key⟩) (Node.merge source now e) nodes
  else Table.insert ((Node.create owner now e).merge source now e) nodes

/-- Source: `_UPSERT_RELATIONS` (`ON CREATE SET`) -/
def Edge.create (owner : Owner) (now : Time) (r : RelationWrite) : Edge where
  source := ⟨owner, r.sourceKey⟩
  type := r.type
  target := ⟨owner, r.targetKey⟩
  owner := owner
  fact := []
  weight := .fin 0
  sources := []
  updated := now

/-- Source: `_UPSERT_RELATIONS` (`SET`) -/
def Edge.merge (A : Rounding) (source : Text) (now : Time) (r : RelationWrite) (x : Edge) : Edge :=
  { x with
    weight := if source ∈ x.sources then x.weight
      else A.sub (.fin 1) (A.mul (A.sub (.fin 1) x.weight) (A.sub (.fin 1) r.weight))
    fact := if r.fact ≠ [] then r.fact else x.fact
    sources := addSource source x.sources
    updated := now }

/-- Source: `_UPSERT_RELATIONS`, one row -/
def mergeRelation (A : Rounding) (owner : Owner) (source : Text) (now : Time) (nodes : List Node)
    (edges : List Edge) (r : RelationWrite) : List Edge :=
  if (Table.row Node.id ⟨owner, r.sourceKey⟩ nodes).isSome ∧
      (Table.row Node.id ⟨owner, r.targetKey⟩ nodes).isSome then
    let id := (⟨owner, r.sourceKey⟩, r.type, ⟨owner, r.targetKey⟩)
    if (Table.row Edge.id id edges).isSome then
      Table.set (fun x => x.id = id) (Edge.merge A source now r) edges
    else Table.insert ((Edge.create owner now r).merge A source now r) edges
  else edges

/-- Source: `StoredEntity` -/
structure StoredEntity where
  owner : Text
  key : Text
  type : Text
  name : Text
  aliases : List Text
  description : Text
  updated : Time
  deriving DecidableEq

def Node.stored (n : Node) : StoredEntity :=
  ⟨n.owner.value, n.key, n.type, n.name, n.aliases, n.description, n.updated⟩

/-- Source: `Graph.upsert`; the count of relations is that of the rows whose ends are there -/
def Graph.upsert (A : Rounding) (owner : Owner) (source : Text) (now : Time)
    (entities : List EntityWrite)
    (relations : List RelationWrite) (g : Graph) : Graph × List StoredEntity × ℕ :=
  let nodes := entities.foldl (mergeEntity owner source now) g.nodes
  let edges := relations.foldl (mergeRelation A owner source now nodes) g.edges
  let stored := entities.filterMap fun e => (Table.row Node.id ⟨owner, e.key⟩ nodes).map Node.stored
  let count := relations.countP fun r => (Table.row Node.id ⟨owner, r.sourceKey⟩ nodes).isSome ∧
    (Table.row Node.id ⟨owner, r.targetKey⟩ nodes).isSome
  (⟨nodes, edges⟩, stored, count)

/-! ### Deletion -/

/-- Source: `_FORGET_SOURCE_RELATIONS` (`WHERE`) -/
def Edge.supportedBy (owner : Owner) (source : Text) (x : Edge) : Bool :=
  x.source.owner = owner && decide (source ∈ x.sources)

def Edge.forget (source : Text) (x : Edge) : Edge :=
  { x with sources := x.sources.filter (· ≠ source) }

def Node.forget (source : Text) (n : Node) : Node :=
  { n with sources := n.sources.filter (· ≠ source) }

/-- Source: `_FORGET_SOURCE_RELATIONS`: the relationships that are left, the keys of the ends, and
how many are deleted -/
def forgetRelations (owner : Owner) (source : Text) (edges : List Edge) :
    List Edge × List Text × ℕ :=
  let supported := edges.filter (Edge.supportedBy owner source)
  let gone := fun x : Edge => x.supportedBy owner source && (x.forget source).sources = []
  (Table.set (Edge.supportedBy owner source) (Edge.forget source) (Table.delete gone edges),
    (supported.map fun x => x.source.key).dedup ++ (supported.map fun x => x.target.key).dedup,
    edges.countP gone)

/-- Source: `_FORGET_SOURCE_ENTITIES`: the nodes that are left, and the keys of those that are
deleted -/
def forgetEntities (owner : Owner) (source : Text) (touched : List Text) (edges : List Edge)
    (nodes : List Node) : List Node × List Text :=
  let matched := fun n : Node => n.owner = owner && decide (source ∈ n.sources ∨ n.key ∈ touched)
  let gone := fun n : Node =>
    matched n && (n.forget source).sources = [] && !edges.any fun x => x.touches n.id
  (Table.set matched (Node.forget source) (Table.delete gone nodes),
    (nodes.filter gone).map Node.key)

/-- Source: `Graph.forget_source` -/
def Graph.forgetSource (owner : Owner) (source : Text) (g : Graph) : Graph × ℕ × List Text :=
  let (edges, touched, relations) := forgetRelations owner source g.edges
  let (nodes, deleted) := forgetEntities owner source touched edges g.nodes
  (⟨nodes, edges⟩, relations, deleted)

/-- `DETACH DELETE` -/
def Graph.detachDelete (p : Node → Bool) (g : Graph) : Graph where
  nodes := Table.delete p g.nodes
  edges := Table.delete (fun x => g.nodes.any fun n => p n && x.touches n.id) g.edges

/-- Source: `Graph.delete_entity` -/
def Graph.deleteEntity (owner : Owner) (key : Text) (g : Graph) : Graph × Option ℕ :=
  let id : NodeId := ⟨owner, key⟩
  (g.detachDelete fun n => n.id = id,
    if (Table.row Node.id id g.nodes).isSome then some (g.edges.countP fun x => x.touches id) else
      none)

/-- Source: `_COUNT_OWNER` -/
def Graph.countOwner (owner : Owner) (g : Graph) : ℕ × ℕ :=
  (g.nodes.countP fun n => n.owner = owner,
    g.edges.countP fun x => x.source.owner = owner)

/-- Source: `_DELETE_OWNER`, one transaction of it: so many of the nodes that were found -/
def deleteRows : ℕ := 500

/-! ### Reading -/

/-- Source: `StoredRelation` -/
structure StoredRelation where
  owner : Text
  sourceKey : Text
  sourceName : Text
  type : Text
  targetKey : Text
  targetName : Text
  fact : Text
  weight : Flt
  updated : Time
  deriving DecidableEq

/-- Source: `StoredRelation.identity` -/
def StoredRelation.identity (r : StoredRelation) : Text × Text × Text × Text :=
  (r.owner, r.sourceKey, r.type, r.targetKey)

/-- Source: `Hop` -/
structure Hop where
  seed : Text × Text
  other : Text × Text
  relation : StoredRelation
  deriving DecidableEq

/-- The name of a node. -/
def Graph.nameOf (g : Graph) (id : NodeId) : Text :=
  ((Table.row Node.id id g.nodes).map Node.name).getD []

def Graph.storedRelation (g : Graph) (owner : Text) (x : Edge) : StoredRelation :=
  ⟨owner, x.source.key, g.nameOf x.source, x.type, x.target.key, g.nameOf x.target, x.fact,
    x.weight, x.updated⟩

/-- `ORDER BY x.weight DESC, x.updated DESC`; relationships with equal values stay in the order in
which they are stored. -/
def strongest (edges : List Edge) : List Edge :=
  edges.mergeSort fun x y => y.weight.lt x.weight ||
    (!x.weight.lt y.weight && decide (y.updated ≤ x.updated))

/-- Source: `Graph.entities` -/
def Graph.entities (g : Graph) (tenant : Text) (owners : List Text) (seeds : List (Text × Text)) :
    List StoredEntity :=
  (seeds.filter fun seed => seed.1 ∈ owners).filterMap fun seed =>
    (Table.row Node.id ⟨⟨tenant, seed.1⟩, seed.2⟩ g.nodes).map Node.stored

/-- The relationships of a node that belong to its owner. -/
def Graph.edgesOf (g : Graph) (id : NodeId) : List Edge :=
  g.edges.filter fun x => x.touches id && x.owner = id.owner

/-- The other end of a relationship. -/
def Edge.other (x : Edge) (id : NodeId) : NodeId := if x.source = id then x.target else x.source

/-- Source: `Graph.expand` -/
def Graph.expand (g : Graph) (reader : Reader) (seeds : List (Text × Text))
    (fanout : ℕ) : List Hop :=
  (seeds.filter fun seed => seed.1 ∈ reader.owners).flatMap fun seed =>
    let id : NodeId := ⟨⟨reader.tenant, seed.1⟩, seed.2⟩
    if (Table.row Node.id id g.nodes).isSome then
      ((strongest (g.edgesOf id)).take fanout).map fun x =>
        ⟨seed, (seed.1, (x.other id).key), g.storedRelation seed.1 x⟩
    else []

/-- Source: `Graph.get` (`_RELATIONS_OF`) -/
def Graph.relationsOf (g : Graph) (owner : Owner) (key : Text) (limit : ℕ) : List StoredRelation :=
  ((strongest (g.edgesOf ⟨owner, key⟩)).take limit).map (g.storedRelation owner.value)

end Jarvis.Knowledge
