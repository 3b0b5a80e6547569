import Jarvis.Orchestrator.Text

/-!
# How tasks and actions are stored

The history and the pending calls of a task, a device command and the action of a confirmation are
stored as JSON documents. `encodeItems`, `encodeCalls` and `encodeCommand` follow `protojson`
(fields with their zero value are left out, the members of a `oneof` are not), `encodeAction`
follows `encoding/json`.
-/

namespace Jarvis.Orchestrator

/-! ## Items and calls -/

/-- Source: `tasks.go` `toolResult` -/
def toolResult (callID out : String) : Item := .toolResult callID out

/-- `protojson.Marshal` of an `Item`. -/
def encodeItem : Item → Json
  | .userText text => .obj [("userText", .str text)]
  | .modelStep step =>
    .obj [("modelStep", .obj (Json.record [("providerItems", step.providerItems)]))]
  | .toolResult callID out =>
    .obj [("toolResult", .obj (Json.record [("callId", callID), ("output", out)]))]

/-- `protojson.Unmarshal` of an `Item`. -/
def decodeItem : Json → Option Item
  | .obj [("userText", .str text)] => some (.userText text)
  | .obj [("modelStep", .obj kvs)] =>
    (Json.strField kvs "providerItems").map fun s => .modelStep ⟨s⟩
  | .obj [("toolResult", .obj kvs)] =>
    (Json.strField kvs "callId").bind fun callID =>
      (Json.strField kvs "output").map fun out => .toolResult callID out
  | _ => none

/-- `protojson.Marshal` of a `ToolCall`. -/
def encodeCall (call : ToolCall) : Json :=
  .obj (Json.record [("callId", call.callID), ("name", call.name),
    ("argumentsJson", call.argumentsJSON)])

/-- `protojson.Unmarshal` of a `ToolCall`. -/
def decodeCall : Json → Option ToolCall
  | .obj kvs =>
    (Json.strField kvs "callId").bind fun callID =>
      (Json.strField kvs "name").bind fun name =>
        (Json.strField kvs "argumentsJson").map fun args => ⟨callID, name, args⟩
  | _ => none

/-- Source: `tasks.go` `encodeItems`. Lean strings are valid Unicode, so no item is left out. -/
def encodeItems (items : List Item) : Json := .arr (items.map encodeItem)

/-- Source: `tasks.go` `encodeCalls` -/
def encodeCalls (calls : List ToolCall) : Json := .arr (calls.map encodeCall)

/-- `json.Unmarshal` into a list of raw messages. -/
def elements : Json → Option (List Json)
  | .null => some []
  | .arr xs => some xs
  | _ => none

/-- The items of a stored history. Source: `tasks.go` `decodeState` -/
def decodeItems (history : Json) : Option (List Item) :=
  (elements history).bind fun xs => xs.mapM decodeItem

/-- The calls of a stored pending list. Source: `tasks.go` `decodeState` -/
def decodeCalls (pending : Json) : Option (List ToolCall) :=
  (elements pending).bind fun xs => xs.mapM decodeCall

/-- Source: `tasks.go` `decodeState` -/
def decodeState (t : Task) : Option (List Item × List ToolCall) :=
  (decodeItems t.history).bind fun items => (decodeCalls t.pending).map fun calls => (items, calls)

/-- Source: `tasks.go` `completePending` -/
def completePending (t : Task) (callID out : String) : Option Task :=
  (decodeState t).bind fun s =>
    match s.2 with
    | [] => none
    | call :: calls =>
      if call.callID = callID then
        some { t with
          history := encodeItems (s.1 ++ [toolResult callID out])
          pending := encodeCalls calls
          state := .queued }
      else none

/-! ### Round trips -/

theorem decodeItem_encodeItem (item : Item) : decodeItem (encodeItem item) = some item := by
  cases item with
  | userText text => rfl
  | modelStep step =>
    simp only [encodeItem, decodeItem]
    rw [Json.strField_record' (s := step.providerItems) (by simp) (by simp)]
    rfl
  | toolResult callID out =>
    simp only [encodeItem, decodeItem]
    rw [Json.strField_record' (s := callID) (by simp) (by simp),
      Json.strField_record' (s := out) (by simp) (by simp)]
    rfl

theorem decodeCall_encodeCall (call : ToolCall) : decodeCall (encodeCall call) = some call := by
  obtain ⟨callID, name, args⟩ := call
  simp only [encodeCall, decodeCall]
  rw [Json.strField_record' (s := callID) (by simp) (by simp),
    Json.strField_record' (s := name) (by simp) (by simp),
    Json.strField_record' (s := args) (by simp) (by simp)]
  rfl

/-- **A stored history is read back.** -/
@[simp] theorem decodeItems_encodeItems (items : List Item) :
    decodeItems (encodeItems items) = some items :=
  mapM_map_eq_some decodeItem_encodeItem items

/-- **Stored pending calls are read back.** -/
@[simp] theorem decodeCalls_encodeCalls (calls : List ToolCall) :
    decodeCalls (encodeCalls calls) = some calls :=
  mapM_map_eq_some decodeCall_encodeCall calls

/-- A task that stores `items` and `calls`. -/
def Stores (t : Task) (items : List Item) (calls : List ToolCall) : Prop :=
  t.history = encodeItems items ∧ t.pending = encodeCalls calls

variable {t : Task} {items : List Item} {calls : List ToolCall}

theorem Stores.decodeState (h : Stores t items calls) : decodeState t = some (items, calls) := by
  simp [Orchestrator.decodeState, h.1, h.2]

/-- What a task stores is determined. -/
theorem Stores.unique (h : Stores t items calls) (h' : Stores t items' calls') :
    items = items' ∧ calls = calls' := by
  have := h.decodeState.symm.trans h'.decodeState
  simpa using this

/-- **Completing the pending call** moves it from the pending calls to the history. -/
theorem completePending_eq (h : Stores t items calls)
    (hc : completePending t callID out = some t') :
    ∃ call rest, calls = call :: rest ∧ call.callID = callID ∧ t' = { t with
      history := encodeItems (items ++ [toolResult callID out])
      pending := encodeCalls rest
      state := .queued } := by
  unfold completePending at hc
  rw [h.decodeState, Option.bind_some] at hc
  cases calls with
  | nil => simp at hc
  | cons call rest =>
    simp only at hc
    split_ifs at hc with hid
    exact ⟨call, rest, rfl, hid, (Option.some.inj hc).symm⟩

/-- The pending call can be completed. -/
theorem completePending_head (h : Stores t items (call :: rest)) (out : String) :
    completePending t call.callID out = some { t with
      history := encodeItems (items ++ [toolResult call.callID out])
      pending := encodeCalls rest
      state := .queued } := by
  simp [completePending, h.decodeState]

/-! ## Device commands -/

/-- `protojson.Marshal` of an `ExecuteCommandRequest` without timeout and grants. -/
def encodeCommand (c : Command) : Json :=
  .obj (Json.record [("program", c.program), ("workingDirectory", c.workingDirectory)] ++
    if c.args = [] then [] else [("args", .arr (c.args.map Json.str))])

/-- `protojson.Unmarshal` of an `ExecuteCommandRequest`. -/
def decodeCommand : Json → Option Command
  | .obj kvs =>
    (Json.strField kvs "program").bind fun program =>
      (match kvs.lookup "args" with
        | none => some []
        | some j => (elements j).bind Json.strings).bind fun args =>
          (Json.strField kvs "workingDirectory").map fun dir => ⟨program, args, dir⟩
  | _ => none

/-! ## Actions -/

/-- `json.Marshal` of an `action`: it fails when the arguments are not JSON.
Source: `execute.go` `action` -/
def encodeAction (P : Params) (a : Action) : Option Json :=
  (if a.arguments = "" then some [] else
    (P.parse a.arguments).map fun j => [("arguments", j)]).map fun args =>
  .obj (("kind", .str a.kind.name) :: (Json.record [("integration_id", a.integrationID),
    ("integration", a.integration), ("tool", a.tool), ("title", a.title)] ++ args))

/-- `json.Unmarshal` into an `action`. -/
def decodeAction (P : Params) : Option Json → Option Action
  | some (.obj kvs) =>
    (Json.strField kvs "kind").bind fun kind =>
      (Json.strField kvs "integration_id").bind fun integrationID =>
        (Json.strField kvs "integration").bind fun integration =>
          (Json.strField kvs "tool").bind fun tool =>
            (Json.strField kvs "title").map fun title =>
              { kind := Kind.ofName kind, integrationID, integration, tool, title,
                arguments := ((kvs.lookup "arguments").map P.jsonbText).getD "" }
  | some .null => some ⟨.other "", "", "", "", "", ""⟩
  | _ => none

/-- **A stored action is readable**, and names the integration and the tool it was made for. -/
theorem decodeAction_encodeAction (h : encodeAction P a = some j) :
    ∃ b, decodeAction P (some j) = some b ∧ b.kind = Kind.ofName a.kind.name ∧
      b.integrationID = a.integrationID ∧ b.integration = a.integration ∧ b.tool = a.tool ∧
      b.title = a.title := by
  obtain ⟨args, hargs, rfl⟩ := Option.map_eq_some_iff.mp h
  have hargs : ∀ key : String, key ≠ "arguments" → args.lookup key = none := by
    intro key hk
    have hk' : (key == "arguments") = false := by simpa using hk
    split_ifs at hargs with he
    · cases hargs; rfl
    · obtain ⟨j, -, rfl⟩ := Option.map_eq_some_iff.mp hargs
      simp [List.lookup_cons, hk']
  set rest := Json.record [("integration_id", a.integrationID), ("integration", a.integration),
    ("tool", a.tool), ("title", a.title)] ++ args with hrest
  have hkind : Json.strField (("kind", .str a.kind.name) :: rest) "kind" = some a.kind.name := by
    simp [Json.strField]
  have hfield : ∀ key s : String, (key, s) ∈ [("integration_id", a.integrationID),
      ("integration", a.integration), ("tool", a.tool), ("title", a.title)] → key ≠ "kind" →
      key ≠ "arguments" → Json.strField (("kind", .str a.kind.name) :: rest) key = some s := by
    intro key s hm hk ha
    have hb : (key == "kind") = false := by simpa using hk
    have hr := Json.strField_record args (by simp) hm (hargs key ha)
    simpa [Json.strField, List.lookup_cons, hb, hrest] using hr
  have hdec : decodeAction P (some (.obj (("kind", .str a.kind.name) :: rest))) =
      some ⟨Kind.ofName a.kind.name, a.integrationID, a.integration, a.tool, a.title,
        (((("kind", Json.str a.kind.name) :: rest).lookup "arguments").map P.jsonbText).getD ""⟩ :=
        by
    simp only [decodeAction, hkind, hfield "integration_id" a.integrationID (by simp) (by decide)
      (by decide), hfield "integration" a.integration (by simp) (by decide) (by decide),
      hfield "tool" a.tool (by simp) (by decide) (by decide),
      hfield "title" a.title (by simp) (by decide) (by decide), Option.bind_some, Option.map_some]
  exact ⟨_, hdec, rfl, rfl, rfl, rfl, rfl⟩

end Jarvis.Orchestrator
