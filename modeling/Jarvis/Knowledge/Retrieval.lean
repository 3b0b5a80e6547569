import Jarvis.Knowledge.Vectors

/-!
# The knowledge service: from a query to context

Source: `services/knowledge/src/jarvis_knowledge/retrieval.py`. The queries to the two stores are
made by the service (`Jarvis.Knowledge.Service`); here is what is computed before, between and after
them.
-/

namespace Jarvis.Knowledge

open Text (ofString)

/-- What the service is started with: its libraries, Qdrant's ranking, and the settings of the
retriever. -/
structure Config where
  library : Library
  rounding : Rounding
  nearest : Nearest
  /-- `date().isoformat()` -/
  isoDate : Time → Text
  minScore : Flt
  margin : Flt

def passageCandidates : ℕ := 24
def entityCandidates : ℕ := 12
def maxSeeds : ℕ := 8

/-- Source: `FANOUT` -/
def fanout (hop : ℕ) : ℕ := if hop = 1 then 12 else 6

def namedScore : Flt := .fin (97 / 100)
def mentionDecay : Flt := .fin (92 / 100)
def hopDecay : Flt := .fin (85 / 100)
def relationFloor : Flt := .fin (6 / 10)

/-- Scores by entity: a dictionary with the keys `(owner, key)`. -/
abbrev Scores := List ((Text × Text) × Flt)

/-- `d.get(k, 0.0)` -/
def Scores.get (d : Scores) (k : Text × Text) : Flt :=
  ((Table.row Prod.fst k d).map Prod.snd).getD (.fin 0)

/-- `sorted(…, key=lambda x: -score(x))` -/
def byScore {α : Type} (score : α → Flt) (l : List α) : List α :=
  l.mergeSort fun x y => !(score x).lt (score y)

/-! ### Where to start -/

/-- Source: `select` (`seed`) -/
def seed (d : Scores) (k : Text × Text) (score : Flt) : Scores :=
  assign Prod.fst (k, score.max (d.get k)) d

/-- Source: `select` -/
def select (c : Config) (passages : List PassageHit) (similar named : List EntityHit) :
    List PassageHit × Scores :=
  let bestPassage := match passages.map PassageHit.score with
    | [] => .fin 0
    | s :: rest => rest.foldl Flt.max s
  let floor := c.minScore.max (c.rounding.sub bestPassage c.margin)
  let kept := passages.filter fun p => floor.le p.score
  let bestEntity := (similar.map EntityHit.score).foldl Flt.max bestPassage
  let entityFloor := c.minScore.max (c.rounding.sub bestEntity c.margin)
  let seeds : Scores := (similar.filter fun h => entityFloor.le h.score).foldl
    (fun d h => seed d (h.owner, h.key) h.score) []
  let seeds := named.foldl (fun d h => seed d (h.owner, h.key) (namedScore.max h.score)) seeds
  let seeds := (kept.take maxSeeds).foldl (fun d p => p.mentions.foldl
    (fun d key => seed d (p.owner, key) (c.rounding.mul p.score mentionDecay)) d) seeds
  (kept, (byScore Prod.snd seeds).take maxSeeds)

/-! ### Hops -/

/-- A relation that was found, its score, and in which hop. -/
abbrev Found := StoredRelation × Flt × ℕ

/-- Source: `retrieve` (the loop over what a hop has found) -/
def follow (c : Config) (entityScores frontier : Scores) (hop : ℕ) (acc : List Found × Scores)
    (h : Hop) : List Found × Scores :=
  let base := frontier.get h.seed
  let score := c.rounding.mul base
    (c.rounding.add (.fin (6 / 10)) (c.rounding.mul (.fin (4 / 10)) h.relation.weight))
  let relations := match Table.row (fun f : Found => f.1.identity) h.relation.identity acc.1 with
    | some known =>
      if known.2.1.lt score then assign (fun f : Found => f.1.identity)
        (h.relation, score, hop) acc.1
      else acc.1
    | none => Table.insert (h.relation, score, hop) acc.1
  let reached := if (Table.row Prod.fst h.other entityScores).isSome then acc.2
    else assign Prod.fst (h.other, (acc.2.get h.other).max (c.rounding.mul base hopDecay)) acc.2
  (relations, reached)

/-- Source: `retrieve` (one hop, after `expand`): the relations so far, and the next frontier -/
def afterHop (c : Config) (top frontier : Scores) (hop : ℕ) (relations : List Found)
    (found : List Hop) : List Found × Scores :=
  let (relations, reached) := found.foldl (follow c top frontier hop) (relations, [])
  (relations, (byScore Prod.snd reached).take (maxSeeds * 2))

/-! ### Packing -/

/-- Source: `Retrieval` -/
structure Retrieval where
  entities : List (StoredEntity × Flt)
  relations : List Found
  passages : List PassageHit
  context : Text
  tokens : ℕ
  truncated : Bool
  deriving DecidableEq

/-- How many bytes a code point takes in UTF-8. -/
def utf8Size (c : ℕ) : ℕ := if c < 0x80 then 1 else if c < 0x800 then 2 else if c < 0x10000 then
    3 else 4

/-- Source: `estimate_tokens` -/
def estimateTokens (text : Text) : ℕ := ((text.map utf8Size).sum + 3) / 4

/-- Source: `humanize`; a type has ASCII letters only -/
def humanize (relationType : Text) : Text :=
  relationType.map fun c => if Text.isUpper c then c + 0x20 else if c = 0x5f then 0x20 else c

/-- Source: `entity_line` -/
def entityLine (e : StoredEntity) : Text :=
  let line := ofString "- " ++ e.name ++ ofString " (" ++ e.type ++ ofString ")"
  if e.description ≠ [] then line ++ ofString ": " ++ e.description else line

/-- Source: `relation_line` -/
def relationLine (r : StoredRelation) : Text :=
  if r.fact ≠ [] then ofString "- " ++ r.fact
  else ofString "- " ++ r.sourceName ++ ofString " " ++ humanize r.type ++
    ofString " " ++ r.targetName

/-- Source: `passage_line` -/
def passageLine (c : Config) (p : PassageHit) : Text :=
  let about := (p.source.occurred.map c.isoDate).toList ++ [p.source.kind] ++
    if p.source.title ≠ [] then [ofString "\"" ++ p.source.title ++ ofString "\""] else []
  let text := [0x20].intercalate ((p.text.splitOnP Text.isSpace).filter (· ≠ []))
  ofString "- (" ++ (ofString ", ").intercalate about ++ ofString ") " ++ text

/-- The sections of the context. -/
inductive Section where
  | entities
  | relations
  | passages
  deriving DecidableEq

/-- Source: `_HEADERS` -/
def Section.header : Section → Text
  | .entities => ofString "Entities:"
  | .relations => ofString "Facts:"
  | .passages => ofString "Notes:"

/-- A line that may go into the context: its section, its place there, its score and its tokens. -/
structure Candidate where
  place : Section × ℕ
  score : Flt
  tokens : ℕ
  line : Text

/-- Source: `pack` (`add`) -/
def addCandidate (acc : List Candidate) (place : Section × ℕ) (score : Flt) (line : Text) :
    List Candidate :=
  if acc.any fun c => c.line = line then acc
  else acc ++ [⟨place, score, estimateTokens (line ++ [0x0a]), line⟩]

/-- Source: `pack` (the loop over the candidates): what is chosen, the tokens used, and whether
something was left out -/
def choose (budget : ℕ) (acc : List Candidate × ℕ × Bool) (item : Candidate) :
    List Candidate × ℕ × Bool :=
  let (chosen, used, truncated) := acc
  let known := chosen.any fun c => c.place.1 = item.place.1
  let cost := item.tokens + if known then 0 else estimateTokens (item.place.1.header ++ [0x0a])
  if budget < used + cost then (chosen, used, true) else (chosen ++ [item], used + cost, truncated)

/-- Source: `pack` (one block of the context) -/
def block (chosen : List Candidate) (part : Section) : Option Text :=
  let items := chosen.filter fun c => c.place.1 = part
  if items = [] then none
  else some ([0x0a].intercalate (part.header :: (byScore Candidate.score items).map Candidate.line))

/-- Source: `pack` -/
def pack (c : Config) (entities : List (StoredEntity × Flt)) (relations : List Found)
    (passages : List PassageHit) (budget : ℕ) : Retrieval :=
  let candidates := entities.zipIdx.foldl (fun acc (x, i) =>
    addCandidate acc (.entities, i) x.2 (entityLine x.1)) []
  let candidates := relations.zipIdx.foldl (fun acc (x, i) =>
    addCandidate acc (.relations, i) x.2.1 (relationLine x.1)) candidates
  let candidates := passages.zipIdx.foldl (fun acc (x, i) =>
    addCandidate acc (.passages, i) x.score (passageLine c x)) candidates
  let (chosen, _, truncated) := (byScore Candidate.score candidates).foldl
    (choose budget) ([], 0, false)
  let keep := fun {α : Type} (part : Section) (l : List α) =>
    (l.zipIdx.filter fun (_, i) => chosen.any fun item => item.place = (part, i)).map Prod.fst
  let context := [0x0a].intercalate
    ([Section.entities, .relations, .passages].filterMap (block chosen))
  { entities := keep .entities entities
    relations := keep .relations relations
    passages := keep .passages passages
    context
    tokens := if context ≠ [] then estimateTokens context else 0
    truncated }

/-- Source: `retrieve` (after the last query) -/
def finish (c : Config) (kept : List PassageHit) (top : Scores) (relations : List Found)
    (stored : List StoredEntity) (budget : ℕ) : Retrieval :=
  let entities := byScore Prod.snd (stored.map fun e => (e, top.get (e.owner, e.key)))
  let floor := c.rounding.mul relationFloor ((top.head?.map Prod.snd).getD (.fin 0))
  let relations := byScore (fun f : Found => f.2.1) (relations.filter fun f => floor.le f.2.1)
  pack c entities relations kept budget

end Jarvis.Knowledge
