import Jarvis.Orchestrator.Text
import Mathlib

/-!
# The tool catalog

`catalog.go`: the tools a conversation or a task is given, and what each name runs. A catalog is
built from the user's devices and the tools of their integrations, read-only ones first.
-/

namespace Jarvis.Orchestrator

/-- A tool of an integration. Source: `mcp.proto` `Tool` -/
structure McpTool where
  integrationID : String
  integrationName : String
  name : String
  title : String
  description : String
  inputSchemaJSON : String
  readOnly : Bool
  deriving DecidableEq, Repr

/-- Source: `catalog.go` `maxDescription` -/
def maxDescription : ℕ := 1024

/-- Source: `catalog.go` `maxTaskMCPTools` -/
def maxTaskMCPTools : ℕ := 100

/-- Source: `catalog.go` `maxSchemaBytes` -/
def maxSchemaBytes : ℕ := 16 * 1024

/-- The characters a tool name keeps. Source: `catalog.go` `unsafeName` -/
def safeChar (c : Char) : Bool := c.isAlphanum || c = '_' || c = '-'

/-- Each run of other characters becomes one underscore. -/
def replaceUnsafe : List Char → List Char
  | [] => []
  | c :: cs =>
    if safeChar c then c :: replaceUnsafe cs
    else match replaceUnsafe cs, cs with
      | rest, d :: _ => if safeChar d then '_' :: rest else rest
      | rest, [] => '_' :: rest

/-- Drop underscores and dashes at both ends. -/
def trimDashes (cs : List Char) : List Char :=
  let dash (c : Char) : Bool := c = '_' || c = '-'
  ((cs.dropWhile dash).reverse.dropWhile dash).reverse

/-- Source: `catalog.go` `slug`. What is cut is ASCII, so characters are bytes. -/
def slug (P : Params) (s : String) (max : ℕ) : String :=
  let cs := trimDashes (replaceUnsafe (s.toList.map P.lower))
  let cs := if max < cs.length then trimDashes (cs.take max) else cs
  if cs = [] then "x" else String.ofList cs

/-- The first of `base_i`, `base_(i+1)`, … that is not taken; of `fuel` names one is free when
fewer are taken. -/
def firstFree (base : String) (used : Tools) : ℕ → ℕ → String
  | 0, i => base ++ "_" ++ toString i
  | fuel + 1, i =>
    let name := base ++ "_" ++ toString i
    if (used.lookup name).isSome then firstFree base used fuel (i + 1) else name

/-- Source: `catalog.go` `uniqueName` -/
def uniqueName (P : Params) (integration tool : String) (used : Tools) : String :=
  let base := slug P integration 20 ++ "__" ++ slug P tool 40
  if (used.lookup base).isSome then firstFree base used used.length 2 else base

/-- Source: `catalog.go` `schema` -/
def schema (properties : String) (required : List String) : String :=
  "\x7b\"type\":\"object\",\"properties\":\x7b" ++ properties ++ "\x7d,\"required\":[" ++
    ",".intercalate (required.map fun r => "\"" ++ r ++ "\"") ++ "]\x7d"

/-- Set what a name runs. -/
def setTarget (tools : Tools) (name : String) (t : Target) : Tools :=
  tools.filter (fun kv => kv.1 ≠ name) ++ [(name, t)]

/-- Source: `catalog.go` `add` -/
def addTool (tools : Tools) (name description parameters : String) (target : Target) : Tools :=
  setTarget tools name { target with description, parameters }

/-- Source: `catalog.go` `builtins` -/
def builtins (P : Params) (voice : Bool) (devices : List Device) : Tools :=
  let c := addTool [] "recall_memory"
    "Search the user's long-term memory (people, projects, past conversations, notes)."
    (schema "\"query\":\x7b\"type\":\"string\",\"description\":\"What to look up\"\x7d" ["query"])
    { kind := .recall }
  let c := addTool c "remember" "Save a fact to the user's long-term memory."
    (schema ("\"note\":\x7b\"type\":\"string\",\"description\":" ++
      "\"The fact, as a standalone sentence\"\x7d") ["note"]) { kind := .remember }
  let c := if voice then
      let c := addTool c "start_task"
        "Start a background task for work with several steps or apps; the result is reported later."
        (schema ("\"goal\":\x7b\"type\":\"string\",\"description\":" ++
          "\"What to achieve, with all details the user gave\"\x7d") ["goal"]) { kind := .start }
      let c := addTool c "confirm_action"
        "Carry out an action the user has just explicitly agreed to."
        (schema "\"confirmation_id\":\x7b\"type\":\"string\"\x7d" ["confirmation_id"])
        { kind := .confirm }
      addTool c "cancel_action" "Drop an action the user declined."
        (schema "\"confirmation_id\":\x7b\"type\":\"string\"\x7d" ["confirmation_id"])
        { kind := .cancel }
    else c
  if devices = [] then c
  else
    let names := devices.map Device.name
    addTool c "run_on_computer" ("Run a program on the user's computer (" ++
        ", ".intercalate names ++ "), sandboxed. Commands outside the computer's allowlist wait " ++
        "for the user's approval on their phone.")
      (schema ("\"device\":\x7b\"type\":\"string\",\"enum\":" ++
        P.marshal (.arr (names.map Json.str)) ++ "\x7d," ++
        "\"program\":\x7b\"type\":\"string\",\"description\":" ++
        "\"Absolute path of the executable, e.g. /usr/bin/git\"\x7d," ++
        "\"args\":\x7b\"type\":\"array\",\"items\":\x7b\"type\":\"string\"\x7d\x7d," ++
        "\"working_directory\":\x7b\"type\":\"string\",\"description\":" ++
        "\"Absolute path; optional\"\x7d") ["device", "program"])
      { kind := .device }

/-- A schema the catalog takes: small enough, and an object schema. -/
def usableSchema (P : Params) (s : String) : Bool :=
  s.utf8ByteSize ≤ maxSchemaBytes &&
    match P.parse s with
    | some (.obj kvs) =>
      match kvs.reverse.lookup "type" with
      | some (.str t) => t = "object"
      | _ => false
    | _ => false

/-- Source: `catalog.go` `integrations` (the loop) -/
def addIntegrations (P : Params) : Tools → List McpTool → ℕ → Tools
  | c, [], _ => c
  | c, _ :: _, 0 => c
  | c, t :: ts, limit + 1 =>
    if usableSchema P t.inputSchemaJSON then
      let title := if t.title = "" then t.name else t.title
      let name := uniqueName P t.integrationName t.name c
      let description := truncate ("[" ++ t.integrationName ++ "] " ++ title ++ ": " ++
        t.description) maxDescription
      addIntegrations P (addTool c name description t.inputSchemaJSON
        { kind := .mcp, integrationID := t.integrationID, integration := t.integrationName,
          tool := t.name, title, readOnly := t.readOnly }) ts limit
    else addIntegrations P c ts (limit + 1)

/-- Source: `catalog.go` `integrations` -/
def integrations (P : Params) (c : Tools) (tools : List McpTool) (limit : ℕ) : Tools :=
  addIntegrations P c (tools.filter (·.readOnly) ++ tools.filter (!·.readOnly)) limit

end Jarvis.Orchestrator
