import Jarvis.Knowledge.Graph

/-!
# The knowledge service: the vectors

The points in Qdrant, and the requests of `services/knowledge/src/jarvis_knowledge/vectors.py`. The
vector of a point is that of the text it was made from, and the text stands for it. What a search
finds among the points that its filter selects is up to Qdrant (`Nearest`).
-/

namespace Jarvis.Knowledge

open Text (ofString)

/-- Source: `upsert_passages` (the payload); when it was written is never read, and is left out -/
structure PassagePayload where
  passageId : Text
  text : Text
  source : SourceInfo
  mentions : List Text
  deriving DecidableEq

/-- Source: `upsert_entities` (the payload) -/
structure EntityPayload where
  key : Text
  names : List Text
  deriving DecidableEq

inductive Payload where
  | passage (p : PassagePayload)
  | entity (e : EntityPayload)
  deriving DecidableEq

/-- Source: `models.PointStruct` -/
structure Point where
  id : Text
  /-- What was embedded. -/
  embedded : Text
  owner : Owner
  payload : Payload
  deriving DecidableEq

/-- Source: `entity_text` -/
def entityText (e : StoredEntity) : Text :=
  let text := e.name ++ ofString " (" ++ e.type ++ ofString ")"
  let text := if e.description ≠ [] then text ++ ofString ": " ++ e.description else text
  if e.aliases ≠ [] then
    text ++ ofString ". Also known as " ++ (ofString ", ").intercalate e.aliases ++ ofString "."
  else text

/-- Source: `upsert_entities` (the names) -/
def namesOf (L : Library) (e : StoredEntity) : List Text :=
  ((((e.name :: e.aliases).map (normalize L.toUnicode)).filter
    (· ≠ [])).dedup).mergeSort fun a b => a ≤ b

/-- The point of an entity. -/
def entityPoint (L : Library) (owner : Owner) (e : StoredEntity) : Point where
  id := entityPointId L owner e.key
  embedded := entityText e
  owner := owner
  payload := .entity ⟨e.key, namesOf L e⟩

/-- The point of a passage. -/
def passagePoint (L : Library) (owner : Owner) (source : SourceInfo)
    (p : PassageWrite) : Point where
  id := passagePointId L owner source.id p.id
  embedded := p.text
  owner := owner
  payload := .passage ⟨p.id, p.text, source, p.mentions⟩

/-- The points of the collection; the id is their key. -/
abbrev Points := List Point

/-- Source: `AsyncQdrantClient.upsert` -/
def upsertPoints (new points : Points) : Points :=
  new.foldl (fun points p => assign Point.id p points) points

/-- Source: `delete_source` (the filter) -/
def Point.isPassageOf (owner : Owner) (sourceId : Text) (p : Point) : Bool :=
  p.owner = owner && match p.payload with
    | .passage payload => payload.source.id = sourceId
    | .entity _ => false

/-- Source: `delete_entities` -/
def deleteEntityPoints (L : Library) (owner : Owner) (keys : List Text)
    (points : Points) : Points :=
  Table.delete (fun p => p.id ∈ keys.map (entityPointId L owner)) points

def Point.isPassage (p : Point) : Bool :=
  match p.payload with
  | .passage _ => true
  | .entity _ => false

/-! ### Search -/

/-- Source: `PassageHit` -/
structure PassageHit where
  owner : Text
  passageId : Text
  text : Text
  source : SourceInfo
  mentions : List Text
  score : Flt
  deriving DecidableEq

/-- Source: `EntityHit` -/
structure EntityHit where
  owner : Text
  key : Text
  score : Flt
  deriving DecidableEq

/-- The best points for the text of a query, with their scores, among those that a filter has
selected. -/
abbrev Nearest := Text → Points → ℕ → List (Point × Flt)

/-- Source: `_passage` -/
def passageHit (hit : Point × Flt) : Option PassageHit :=
  match hit.1.payload with
  | .passage p => some ⟨hit.1.owner.value, p.passageId, p.text, p.source, p.mentions, hit.2⟩
  | .entity _ => none

/-- Source: `_entity` -/
def entityHit (hit : Point × Flt) : Option EntityHit :=
  match hit.1.payload with
  | .entity e => some ⟨hit.1.owner.value, e.key, hit.2⟩
  | .passage _ => none

/-- Source: `search` (`visible`) -/
def Point.visible (reader : Reader) (p : Point) : Bool :=
  p.owner.tenant = reader.tenant && decide (p.owner.value ∈ reader.owners)

/-- Source: `search` (`passage_filter`) -/
def Point.inPassageFilter (reader : Reader) (sourceKinds : List Text) (p : Point) : Bool :=
  p.visible reader && match p.payload with
    | .passage payload => decide (sourceKinds = [] ∨ payload.source.kind ∈ sourceKinds)
    | .entity _ => false

/-- Source: `search` (`entity_filter`) -/
def Point.inEntityFilter (reader : Reader) (p : Point) : Bool := p.visible reader && !p.isPassage

/-- Source: `search` (`named`) -/
def Point.isNamed (reader : Reader) (names : List Text) (p : Point) : Bool :=
  p.visible reader && match p.payload with
    | .entity e => e.names.any fun n => n ∈ names
    | .passage _ => false

/-- Source: `search` -/
def search (nearest : Nearest) (reader : Reader) (query : Text) (passages entities : ℕ)
    (sourceKinds names : List Text) (points : Points) :
    List PassageHit × List EntityHit × List EntityHit :=
  ((nearest query (points.filter (Point.inPassageFilter reader sourceKinds)) passages).filterMap
      passageHit,
    (nearest query (points.filter (Point.inEntityFilter reader)) entities).filterMap entityHit,
    if names ≠ [] then
      (nearest query (points.filter (Point.isNamed reader names)) entities).filterMap entityHit
    else [])

end Jarvis.Knowledge
