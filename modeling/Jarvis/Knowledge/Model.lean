import Jarvis.Fallible
import Jarvis.Floats
import Jarvis.Table
import Jarvis.Text
import Mathlib

/-!
# The knowledge service: validated values

Owners, entity keys and the limits of requests. Source:
`services/knowledge/src/jarvis_knowledge/model.py`. The messages are those of
`proto/jarvis/knowledge/v1/knowledge.proto`; strings are texts of Python, and Unicode, UUIDs, hashes
and URLs are a parameter (`Library`).
-/

namespace Jarvis.Knowledge

open Text (ofString strip isControl isName matchesDollar words isUpper isLower isDigit)

/-- A time, in nanoseconds since 1970. -/
abbrev Time := ℤ

/-- A UUID, as a number. -/
abbrev UUID := ℕ

/-- What the service uses of Python's libraries. -/
structure Library extends Text.Unicode where
  /-- `uuid.UUID` -/
  uuid : Text → Option UUID
  /-- `str` of a UUID -/
  uuidText : UUID → Text
  /-- `str(uuid.uuid5(_POINTS, …))` -/
  uuid5 : Text → Text
  /-- `hashlib.sha256(…).hexdigest()` -/
  sha256 : Text → Text
  /-- `urlsplit(…).scheme`, if it can be parsed -/
  urlScheme : Text → Option Text

/-- What is raised. -/
inductive Raised where
  | invalidArgument (message : Text)
  | valueError
  deriving DecidableEq

def invalid (message : String) : Raised := .invalidArgument (ofString message)

/-! ### Limits -/

def maxEntities : ℕ := 200
def maxRelations : ℕ := 500
def maxPassages : ℕ := 200
def maxAliases : ℕ := 20
def maxMentions : ℕ := 50
def maxName : ℕ := 200
def maxDescription : ℕ := 2000
def maxFact : ℕ := 1000
def maxPassage : ℕ := 8000
def maxQuery : ℕ := 2000
def maxTitle : ℕ := 200
def maxUri : ℕ := 2048
def maxStoredAliases : ℕ := 50
def maxStoredSources : ℕ := 64
def defaultTokenBudget : ℤ := 800
def defaultWeight : Flt := .fin (1 / 2)

/-! ### Texts -/

/-- Source: `printable_ascii` -/
def printableAscii (value : Text) (low high : ℕ) : Bool :=
  decide (low ≤ value.length) && decide (value.length ≤ high) && value.all fun c =>
    0x20 ≤ c && c ≤ 0x7e

/-- A control character that is neither a newline nor a tab. -/
def isBad (c : ℕ) : Bool := isControl c && !(c = 0x0a || c = 0x09)

/-- Source: `clean_text` -/
def cleanText (value : Text) (field : String) (high : ℕ) (required : Bool) : Except Raised Text :=
  do
  let value := strip value
  ensure (required = true → value ≠ []) (invalid s!"{field} is required")
  ensure (value.length ≤ high) (invalid s!"{field} is longer than {high} characters")
  ensure (value.any isBad = false) (invalid s!"{field} contains control characters")
  pure value

/-- Source: `normalize` -/
def normalize (L : Text.Unicode) (text : Text) : Text :=
  let decomposed := L.nfkd (L.casefold text)
  let stripped := decomposed.filter fun c => !L.combining c
  [0x20].intercalate (words L.isWord (L.nfkc stripped))

/-- Source: `name_candidates` (the words of each n-gram, before they are joined, as a set that is
sorted) -/
def nameCandidates (L : Text.Unicode) (query : Text) (maxWords : ℕ) : List Text :=
  let words := (normalize L query).splitOnP (· = 0x20) |>.filter (· ≠ [])
  let grams := (List.range maxWords).flatMap fun n =>
    (List.range (words.length - n)).map fun i => [0x20].intercalate ((words.drop i).take (n + 1))
  ((grams.dedup).filter fun g => 2 ≤ g.length).mergeSort fun a b => a ≤ b

/-! ### Owners -/

/-- Source: `knowledge.proto` `Scope` -/
inductive Scope where
  | unspecified
  | user
  | tenant
  | unknown (n : ℤ)
  deriving DecidableEq

/-- Source: `Owner`; the value is `u:` and the user, or `t` -/
structure Owner where
  tenant : Text
  value : Text
  deriving DecidableEq

/-- Source: `Reader` -/
structure Reader where
  tenant : Text
  user : Text
  deriving DecidableEq

def ownerOf (user : Text) : Text := ofString "u:" ++ user

def shared : Text := ofString "t"

/-- Source: `Reader.owners` -/
def Reader.owners (r : Reader) : List Text := [ownerOf r.user, shared]

/-- Source: `parse_tenant` -/
def parseTenant (L : Library) (tenantId : Text) : Except Raised Text := do
  let parsed ← okOr (invalid "tenant_id must be a canonical lowercase UUID") (L.uuid tenantId)
  ensure (parsed ≠ 0 ∧ L.uuidText parsed = tenantId)
    (invalid "tenant_id must be a canonical lowercase UUID")
  pure tenantId

/-- Source: `parse_user` -/
def parseUser (userId : Text) : Except Raised Text := do
  ensure (printableAscii userId 1 128 = true)
    (invalid "user_id must be 1 to 128 printable ASCII characters")
  pure userId

/-- Source: `parse_reader` -/
def parseReader (L : Library) (tenantId userId : Text) : Except Raised Reader := do
  let tenant ← parseTenant L tenantId
  let user ← parseUser userId
  pure ⟨tenant, user⟩

/-- Source: `parse_owner` -/
def parseOwner (L : Library) (tenantId userId : Text) (scope : Scope) : Except Raised Owner := do
  let tenant ← parseTenant L tenantId
  let user ← parseUser userId
  match scope with
  | .unspecified | .user => pure ⟨tenant, ownerOf user⟩
  | .tenant => pure ⟨tenant, shared⟩
  | .unknown _ => .error (invalid "unknown scope")

/-! ### Entities -/

/-- Source: `_ENTITY_TYPE` -/
def isEntityType (value : Text) : Bool :=
  matchesDollar (isName isUpper (fun c => isUpper c || isLower c || isDigit c) 31) value

/-- Source: `_RELATION_TYPE` -/
def isRelationType (value : Text) : Bool :=
  matchesDollar (isName isUpper (fun c => isUpper c || isDigit c || c = 0x5f) 63) value

/-- Source: `_SOURCE_KIND` -/
def isSourceKind (value : Text) : Bool :=
  matchesDollar (isName isLower (fun c => isLower c || isDigit c || c = 0x5f) 31) value

/-- Source: `entity_type` -/
def entityType (L : Library) (value : Text) : Except Raised Text := do
  ensure (isEntityType value = true) (.invalidArgument (ofString "entity type " ++
    L.repr (value.take 40) ++ ofString " must match [A-Z][A-Za-z0-9]\x7b0,31\x7d"))
  pure value

/-- Source: `relation_type` -/
def relationType (L : Library) (value : Text) : Except Raised Text := do
  ensure (isRelationType value = true) (.invalidArgument (ofString "relation type " ++
    L.repr (value.take 70) ++ ofString " must match [A-Z][A-Z0-9_]\x7b0,63\x7d"))
  pure value

/-- The key of an entity, from its type and its normalized name. -/
def keyOf (type normalized : Text) : Text := type ++ 0x3a :: normalized

/-- Source: `entity_key` -/
def entityKey (L : Library) (type name : Text) : Except Raised Text := do
  let normalized := normalize L.toUnicode name
  ensure (normalized ≠ []) (.invalidArgument (ofString "entity name " ++ L.repr (name.take 40) ++
    ofString " has no letters or digits"))
  pure (keyOf type normalized)

/-- Source: `_KEY` -/
def isKey (key : Text) : Bool :=
  let type := key.takeWhile (· ≠ 0x3a)
  let rest := key.drop (type.length + 1)
  isName isUpper (fun c => isUpper c || isLower c || isDigit c) 31 type &&
    decide (type.length < key.length) &&
    (decide (1 ≤ rest.length) && (decide (rest.length ≤ 400) ||
      (decide (rest.length = 401) && rest.getLast? = some 0x0a)))

/-- Source: `parse_key` -/
def parseKey (L : Library) (key : Text) : Except Raised Text := do
  let name := (key.dropWhile (· ≠ 0x3a)).drop 1
  ensure (isKey key = true ∧ normalize L.toUnicode name = name)
    (invalid "key must be an entity key such as Person:maria papadopoulou")
  pure key

/-- Source: `passage_point_id` (what is hashed) -/
def passageName (owner : Owner) (sourceId passageId : Text) : Text :=
  [0].intercalate [ofString "passage", owner.tenant, owner.value, sourceId, passageId]

/-- Source: `passage_point_id` -/
def passagePointId (L : Library) (owner : Owner) (sourceId passageId : Text) : Text :=
  L.uuid5 (passageName owner sourceId passageId)

/-- Source: `entity_point_id` (what is hashed) -/
def entityName (owner : Owner) (key : Text) : Text :=
  [0].intercalate [ofString "entity", owner.tenant, owner.value, key]

/-- Source: `entity_point_id` -/
def entityPointId (L : Library) (owner : Owner) (key : Text) : Text :=
  L.uuid5 (entityName owner key)

/-- Source: `default_passage_id` -/
def defaultPassageId (L : Library) (sourceId text : Text) : Text :=
  (L.sha256 (sourceId ++ 0 :: text)).take 32

/-! ### Messages -/

/-- Source: `knowledge.proto` `Source` -/
structure Source where
  id : Text
  kind : Text
  title : Text := []
  uri : Text := []
  occurredTime : Option Time := none
  deriving DecidableEq

/-- Source: `knowledge.proto` `EntityInput` -/
structure EntityInput where
  type : Text
  name : Text
  aliases : List Text := []
  description : Text := []
  deriving DecidableEq

/-- Source: `knowledge.proto` `EntityRef` -/
structure EntityRef where
  type : Text
  name : Text
  deriving DecidableEq

/-- Source: `knowledge.proto` `RelationInput` -/
structure RelationInput where
  source : Option EntityRef
  type : Text
  target : Option EntityRef
  fact : Text := []
  weight : Option Flt := none
  deriving DecidableEq

/-- Source: `knowledge.proto` `PassageInput` -/
structure PassageInput where
  id : Text := []
  text : Text
  mentions : List EntityRef := []
  deriving DecidableEq

/-- Source: `knowledge.proto` `UpsertKnowledgeRequest` -/
structure UpsertKnowledgeRequest where
  tenantId : Text
  userId : Text
  scope : Scope
  source : Option Source
  entities : List EntityInput := []
  relations : List RelationInput := []
  passages : List PassageInput := []
  deriving DecidableEq

/-! ### What is stored -/

/-- Source: `SourceInfo` -/
structure SourceInfo where
  id : Text
  kind : Text
  title : Text
  uri : Text
  occurred : Option Time
  deriving DecidableEq

/-- Source: `EntityWrite` -/
structure EntityWrite where
  key : Text
  type : Text
  name : Text
  aliases : List Text := []
  description : Text := []
  explicit : Bool := true
  deriving DecidableEq

/-- Source: `RelationWrite` -/
structure RelationWrite where
  sourceKey : Text
  type : Text
  targetKey : Text
  fact : Text
  weight : Flt
  deriving DecidableEq

/-- What tells relations apart. -/
def RelationWrite.identity (r : RelationWrite) : Text × Text × Text :=
  (r.sourceKey, r.type, r.targetKey)

/-- Source: `PassageWrite` -/
structure PassageWrite where
  id : Text
  text : Text
  mentions : List Text
  deriving DecidableEq

/-- Source: `Upsert` -/
structure Upsert where
  owner : Owner
  source : SourceInfo
  entities : List EntityWrite
  relations : List RelationWrite
  passages : List PassageWrite
  deriving DecidableEq

/-! ### Parsing -/

/-- The first and the last second that a `datetime` can be, in nanoseconds. -/
def minDatetime : Time := -62135596800000000000
def maxDatetime : Time := 253402300799999999999

/-- Source: `Timestamp.ToDatetime` -/
def toDatetime (t : Time) : Except Raised Time := do
  ensure (minDatetime ≤ t ∧ t ≤ maxDatetime) .valueError
  pure (t - t % 1000)

/-- Source: `parse_source` -/
def parseSource (L : Library) (source : Source) : Except Raised SourceInfo := do
  ensure (printableAscii source.id 1 128 = true)
    (invalid "source.id must be 1 to 128 printable ASCII characters")
  ensure (isSourceKind source.kind = true)
    (invalid "source.kind must match [a-z][a-z0-9_]\x7b0,31\x7d")
  let uri ← cleanText source.uri "source.uri" maxUri false
  if uri ≠ [] then
    let scheme ← okOr .valueError (L.urlScheme uri)
    ensure (scheme ≠ []) (invalid "source.uri must be an absolute URI")
  let occurred ← match source.occurredTime with
    | some t => (toDatetime t).map some
    | none => pure none
  let title ← cleanText source.title "source.title" maxTitle false
  pure { id := source.id, kind := source.kind, title, uri, occurred }

/-- Source: `_dedupe` -/
def dedupe (L : Library) (values : List Text) : List Text :=
  values.foldl (fun out v =>
    if out.any fun w => normalize L.toUnicode w = normalize L.toUnicode v then out
    else out ++ [v]) []

/-- `d[k] = x` for a dictionary, as the list of its values -/
def assign {α κ : Type} [DecidableEq κ] (key : α → κ) (x : α) (rows : List α) : List α :=
  if (Table.row key (key x) rows).isSome then Table.set (fun y => key y = key x) (fun _ => x) rows
  else Table.insert x rows

/-- Source: `_parse_entities`, one entity -/
def parseEntity (L : Library) (entities : List EntityWrite) (e : EntityInput) :
    Except Raised (List EntityWrite) := do
  let type ← entityType L e.type
  let name ← cleanText e.name "entity name" maxName true
  let key ← entityKey L type name
  ensure (e.aliases.length ≤ maxAliases) (invalid s!"at most {maxAliases} aliases per entity")
  let cleaned ← e.aliases.mapM fun a => cleanText a "alias" maxName false
  let aliases := cleaned.filter fun a => a ≠ [] ∧ normalize L.toUnicode a ≠ []
  let description ← cleanText e.description "entity description" maxDescription false
  if (Table.row EntityWrite.key key entities).isSome then
    pure (Table.set (fun known => known.key = key) (fun known => { known with
      aliases := dedupe L (known.aliases ++ aliases)
      description := if description ≠ [] then description else known.description }) entities)
  else pure (Table.insert { key, type, name, aliases := dedupe L aliases, description } entities)

/-- Source: `_parse_entities` -/
def parseEntities (L : Library) (inputs : List EntityInput) : Except Raised (List EntityWrite) :=
  inputs.foldlM (parseEntity L) []

/-- Source: `_reference` -/
def reference (L : Library) (ref : EntityRef) (what : String) (entities : List EntityWrite) :
    Except Raised (Text × List EntityWrite) := do
  let type ← entityType L ref.type
  let name ← cleanText ref.name s!"{what} name" maxName true
  let key ← entityKey L type name
  if (Table.row EntityWrite.key key entities).isSome then pure (key, entities)
  else pure (key, Table.insert { key, type, name, explicit := false } entities)

/-- Source: `_parse_relations`, one relation -/
def parseRelation (L : Library) (acc : List EntityWrite × List RelationWrite) (r : RelationInput) :
    Except Raised (List EntityWrite × List RelationWrite) := do
  let (entities, relations) := acc
  let source ← okOr (invalid "relations need a source and a target") r.source
  let target ← okOr (invalid "relations need a source and a target") r.target
  let weight := r.weight.getD defaultWeight
  ensure (weight.inUnit = true) (invalid "relation weight must be between 0 and 1")
  let (sourceKey, entities) ← reference L source "relation source" entities
  let type ← relationType L r.type
  let (targetKey, entities) ← reference L target "relation target" entities
  let fact ← cleanText r.fact "relation fact" maxFact false
  ensure (sourceKey ≠ targetKey) (invalid "a relation cannot connect an entity to itself")
  pure (entities,
    assign RelationWrite.identity { sourceKey, type, targetKey, fact, weight } relations)

/-- Source: `_parse_relations` -/
def parseRelations (L : Library) (inputs : List RelationInput) (entities : List EntityWrite) :
    Except Raised (List EntityWrite × List RelationWrite) :=
  inputs.foldlM (parseRelation L) (entities, [])

/-- Source: `_parse_passages` (the mentions of a passage) -/
def parseMention (L : Library) (acc : List Text × List EntityWrite) (m : EntityRef) :
    Except Raised (List Text × List EntityWrite) := do
  let (key, entities) ← reference L m "mention" acc.2
  pure (if key ∈ acc.1 then acc.1 else acc.1 ++ [key], entities)

/-- Source: `_parse_passages`, one passage -/
def parsePassage (L : Library) (sourceId : Text) (acc : List EntityWrite × List PassageWrite)
    (p : PassageInput) : Except Raised (List EntityWrite × List PassageWrite) := do
  let (entities, passages) := acc
  let text ← cleanText p.text "passage text" maxPassage true
  let id := if p.id ≠ [] then p.id else defaultPassageId L sourceId text
  ensure (printableAscii id 1 128 = true)
    (invalid "passage id must be 1 to 128 printable ASCII characters")
  ensure (p.mentions.length ≤ maxMentions) (invalid s!"at most {maxMentions} mentions per passage")
  let (mentions, entities) ← p.mentions.foldlM (parseMention L) ([], entities)
  pure (entities, assign PassageWrite.id { id, text, mentions } passages)

/-- Source: `_parse_passages` -/
def parsePassages (L : Library) (inputs : List PassageInput) (sourceId : Text)
    (entities : List EntityWrite) : Except Raised (List EntityWrite × List PassageWrite) :=
  inputs.foldlM (parsePassage L sourceId) (entities, [])

/-- Source: `parse_upsert` -/
def parseUpsert (L : Library) (req : UpsertKnowledgeRequest) : Except Raised Upsert := do
  let owner ← parseOwner L req.tenantId req.userId req.scope
  let source ← okOr (invalid "source is required") req.source
  let source ← parseSource L source
  ensure (req.entities.length ≤ maxEntities ∧ req.relations.length ≤ maxRelations ∧
    req.passages.length ≤ maxPassages) (invalid
      s!"at most {maxEntities} entities, {maxRelations} relations and {maxPassages} passages")
  ensure (req.entities ≠ [] ∨ req.relations ≠ [] ∨ req.passages ≠ [])
    (invalid "nothing to store: give entities, relations or passages")
  let entities ← parseEntities L req.entities
  let (entities, relations) ← parseRelations L req.relations entities
  let (entities, passages) ← parsePassages L req.passages source.id entities
  pure { owner, source, entities, relations, passages }

end Jarvis.Knowledge
