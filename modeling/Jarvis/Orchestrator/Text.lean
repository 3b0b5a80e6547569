import Jarvis.Orchestrator.Types

/-!
# Texts and parameters

The string functions the engine uses on every path, and `Params`: the options of a deployment
together with the parts of Go's and PostgreSQL's libraries the engine relies on (reading and
writing JSON text, UUID text, dates). Nothing is assumed about the latter here.
-/

namespace Jarvis.Orchestrator

/-- Source: `engine.go` `Options` -/
structure Options where
  workers : ℕ
  taskMaxSteps : ℕ
  taskTimeout : Time
  confirmationTTL : Time
  transcriptRetention : Time
  maxVoiceTools : ℕ

/-- A deployment: its options and the libraries it runs on. -/
structure Params where
  opts : Options
  /-- `encoding/json` reading a text; `none` if it is not valid JSON. -/
  parse : String → Option Json
  /-- `encoding/json` writing a value. -/
  marshal : Json → String
  /-- The text PostgreSQL gives back for a `jsonb` value. -/
  jsonbText : Json → String
  /-- `uuid.UUID.String` -/
  uuidText : UUID → String
  /-- `uuid.Parse` -/
  parseUUID : String → Option UUID
  /-- The folding under which `encoding/json` matches keys. -/
  fold : String → String
  /-- `unicode.ToLower` -/
  lower : Char → Char
  /-- The verb `%q` of `fmt` -/
  quote : String → String
  /-- A date as the task introduction writes it. -/
  day : Time → String
  /-- Whether `tls.X509KeyPair` takes a certificate and a key for a pair. -/
  keyPair : String → String → Bool

/-! ## Lengths of time, in microseconds -/

/-- One second. -/
def second : Time := 1000000

/-- One minute. -/
def minute : Time := 60 * second

/-- One hour. -/
def hour : Time := 60 * minute

/-! ## Cutting -/

/-- The characters of a prefix of at most `n` bytes. -/
def takeBytes : ℕ → List Char → List Char
  | _, [] => []
  | n, c :: cs => if c.utf8Size ≤ n then c :: takeBytes (n - c.utf8Size) cs else []

/-- Source: `catalog.go` `truncate` -/
def truncate (s : String) (n : ℕ) : String :=
  if s.utf8ByteSize ≤ n then s else String.ofList (takeBytes n s.toList)

/-- Go's `unicode.IsSpace`. -/
def isSpace (c : Char) : Bool :=
  c ∈ ['\t', '\n', '\x0b', '\x0c', '\r', ' ', '\u0085', '\u00a0', '\u1680', '\u2028',
    '\u2029', '\u202f', '\u205f', '\u3000'] || ('\u2000' ≤ c && c ≤ '\u200a')

/-- Go's `strings.TrimSpace`. -/
def trimSpace (s : String) : String :=
  String.ofList (((s.toList.dropWhile isSpace).reverse.dropWhile isSpace).reverse)

/-! ## Tool results -/

/-- The members of a JSON object with string values. -/
def strs (kvs : List (String × String)) : Json := .obj (kvs.map fun kv => (kv.1, .str kv.2))

/-- Source: `engine.go` `output`, for values that can be marshalled -/
def output (P : Params) (kvs : List (String × String)) : String := P.marshal (strs kvs)

/-- Source: `engine.go` `failure` -/
def failure (P : Params) (message : String) : String × Bool := (output P [("error", message)], true)

/-! ## Reading arguments -/

/-- A string member as `encoding/json` decodes it: the last one whose key matches, `null` changing
nothing; `none` if one has another type. -/
def readString (P : Params) (key : String) : List (String × Json) → String → Option String
  | [], s => some s
  | (k, v) :: kvs, s =>
    if P.fold k = P.fold key then
      match v with
      | .null => readString P key kvs s
      | .str s' => readString P key kvs s'
      | _ => none
    else readString P key kvs s

/-- A member that is a list of strings, as `encoding/json` decodes it. -/
def readStrings (P : Params) (key : String) :
    List (String × Json) → List String → Option (List String)
  | [], xs => some xs
  | (k, v) :: kvs, xs =>
    if P.fold k = P.fold key then
      match v with
      | .null => readStrings P key kvs []
      | .arr ys => (Json.strings ys).bind fun ys => readStrings P key kvs ys
      | _ => none
    else readStrings P key kvs xs

/-- The members of a value decoded into a struct; `none` if it is not an object. -/
def members : Json → Option (List (String × Json))
  | .null => some []
  | .obj kvs => some kvs
  | _ => none

/-- `json.Unmarshal` of arguments into a struct with one string field. -/
def argument (P : Params) (args key : String) : Option String :=
  (P.parse args).bind fun j => (members j).bind fun kvs => readString P key kvs ""

/-- What is in the field if the error of `json.Unmarshal` is ignored: a member of another type
changes nothing. -/
def argumentKept (P : Params) (args key : String) : String :=
  (((P.parse args).bind members).getD []).foldl (fun s kv =>
    match kv.2 with
    | .str s' => if P.fold kv.1 = P.fold key then s' else s
    | _ => s) ""

end Jarvis.Orchestrator
