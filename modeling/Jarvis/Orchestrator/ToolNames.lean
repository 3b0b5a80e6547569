import Jarvis.Bytes
import Jarvis.Orchestrator.System

/-!
# The names in the tool catalog

The catalog as `catalog.go` keeps it: a list of tools for the model, and what each name runs.

The search of `uniqueName` ends at the first candidate that is free (`uniqueName_spec`), since a
list of names cannot hold all of them. So names are distinct and each runs the tool it was made for.
They are made of the characters that the agent allows, but the counter at the end of a name is not
counted in its length: `catalog_sound_iff` says when all names have 64 characters at most.
-/

namespace Jarvis.Orchestrator

/-! ### Source -/

/-- Source: `orchestrator.proto` `FunctionTool` -/
structure FunctionTool where
  name : String
  description : String
  parametersJSON : String
  deriving DecidableEq, Repr

/-- Source: `catalog.go` `catalog` -/
structure Catalog where
  tools : List FunctionTool
  targets : Tools
  deriving DecidableEq, Repr

/-- A catalog each name of which was added once. -/
def Catalog.ofTools (targets : Tools) : Catalog where
  tools := targets.map fun kv => ⟨kv.1, kv.2.description, kv.2.parameters⟩
  targets := targets

/-- Source: `catalog.go` `add` -/
def Catalog.add (c : Catalog) (name description parameters : String)
    (target : Target) : Catalog where
  tools := c.tools ++ [⟨name, description, parameters⟩]
  targets := addTool c.targets name description parameters target

/-- What the catalog says of an integration's tool. -/
def McpTool.shownTitle (t : McpTool) : String := if t.title = "" then t.name else t.title

def McpTool.shownDescription (t : McpTool) : String :=
  truncate ("[" ++ t.integrationName ++ "] " ++ t.shownTitle ++ ": " ++
    t.description) maxDescription

/-- What the name of an integration's tool runs. -/
def McpTool.target (t : McpTool) : Target where
  kind := .mcp
  integrationID := t.integrationID
  integration := t.integrationName
  tool := t.name
  title := t.shownTitle
  readOnly := t.readOnly

section

variable (P : Params)

/-- Source: `catalog.go` `integrations` (the loop) -/
def Catalog.addIntegrations : Catalog → List McpTool → ℕ → Catalog
  | c, [], _ => c
  | c, _ :: _, 0 => c
  | c, t :: ts, limit + 1 =>
    if usableSchema P t.inputSchemaJSON then
      let name := uniqueName P t.integrationName t.name c.targets
      addIntegrations (c.add name t.shownDescription t.inputSchemaJSON t.target) ts limit
    else addIntegrations c ts (limit + 1)

/-- The order in which tools are looked at: `sort.SliceStable` with the read-only ones first. -/
def readOnlyFirst (tools : List McpTool) : List McpTool :=
  tools.filter (·.readOnly) ++ tools.filter (!·.readOnly)

/-- Source: `catalog.go` `buildCatalog`, with what the store and the MCP router returned -/
def buildCatalog (voice : Bool) (devices : List Device) (tools : List McpTool)
    (limit : ℕ) : Catalog :=
  (Catalog.ofTools (builtins P voice devices)).addIntegrations P (readOnlyFirst tools) limit

end

/-! ### The search for a name -/

/-- The names that `uniqueName` tries, in order. -/
def candidate (base : String) : ℕ → String
  | 0 => base
  | k + 1 => base ++ "_" ++ toString (k + 2)

def baseName (P : Params) (integration tool : String) : String :=
  slug P integration 20 ++ "__" ++ slug P tool 40

/-- The name is in use. -/
def Taken (used : Tools) (name : String) : Prop := (used.lookup name).isSome = true

instance (used : Tools) (name : String) : Decidable (Taken used name) :=
  inferInstanceAs (Decidable (_ = true))

variable {used : Tools}

theorem taken_iff : Taken used name ↔ name ∈ used.map Prod.fst := by
  rw [Taken, List.lookup_isSome_iff, List.mem_map]
  simp only [beq_iff_eq]
  exact ⟨fun ⟨p, hp, h⟩ => ⟨p, hp, h.symm⟩, fun ⟨p, hp, h⟩ => ⟨p, hp, h.symm⟩⟩

theorem candidate_injective (base : String) : Function.Injective (candidate base) := by
  have hne : ∀ k, base ≠ candidate base (k + 1) := by
    intro k h
    have hlen := congrArg (fun s => s.toList.length) h
    simp [candidate, String.toList_append] at hlen
  intro i j h
  cases i with
  | zero =>
    cases j with
    | zero => rfl
    | succ j => exact absurd h (hne j)
  | succ i =>
    cases j with
    | zero => exact absurd h.symm (hne i)
    | succ j =>
      have hrepr : (i + 2).repr = (j + 2).repr := (String.append_right_inj _).mp h
      have := natRepr_injective hrepr
      omega

/-- A list of names cannot hold all candidates. -/
theorem exists_free (base : String) (used : Tools) : ∃ k ≤ used.length,
    ¬ Taken used (candidate base k) := by
  by_contra hall
  simp only [not_exists, not_and, not_not] at hall
  have hsubset : (List.range (used.length + 1)).map (candidate base) ⊆ used.map Prod.fst := by
    intro name hname
    obtain ⟨k, hk, rfl⟩ := List.mem_map.mp hname
    exact taken_iff.mp (hall k (Nat.lt_succ_iff.mp (List.mem_range.mp hk)))
  have hle := (List.nodup_range.map (candidate_injective base)).length_le_of_subset hsubset
  simp only [List.length_map, List.length_range] at hle
  omega

/-- The loop stops at the first candidate from `k` on that is free. -/
theorem firstFree_spec (h : ∃ j, k ≤ j ∧ j < k + fuel ∧ ¬ Taken used (candidate base (j + 1))) :
    ∃ j, k ≤ j ∧ firstFree base used fuel (k + 2) = candidate base (j + 1) ∧
      ¬ Taken used (candidate base (j + 1)) ∧ ∀ i, k ≤ i → i < j →
      Taken used (candidate base (i + 1)) := by
  induction fuel generalizing k with
  | zero =>
    obtain ⟨j, hkj, hj, -⟩ := h
    omega
  | succ fuel ih =>
    rw [firstFree]
    by_cases hk : Taken used (candidate base (k + 1))
    · have hlookup : (used.lookup (base ++ "_" ++ toString (k + 2))).isSome = true := hk
      simp only [hlookup, if_true]
      obtain ⟨j, hkj, hj, hfree⟩ := h
      have hne : j ≠ k := by
        rintro rfl
        exact hfree hk
      obtain ⟨j', hkj', heq, hfree', hbefore⟩ := ih (k := k + 1) ⟨j, by omega, by omega, hfree⟩
      refine ⟨j', by omega, heq, hfree', fun i hi hij => ?_⟩
      by_cases hik : i = k
      · rw [hik]
        exact hk
      · exact hbefore i (by omega) hij
    · have hlookup : ¬ (used.lookup (base ++ "_" ++ toString (k + 2))).isSome = true := hk
      simp only [hlookup]
      exact ⟨k, le_rfl, rfl, hk, fun i hi hik => by omega⟩

/-- **The search ends**, at the first candidate that is free. -/
theorem uniqueName_spec (P : Params) (integration tool : String) (used : Tools) :
    ∃ k, uniqueName P integration tool used = candidate (baseName P integration tool) k ∧
      ¬ Taken used (candidate (baseName P integration tool) k) ∧
      ∀ i < k, Taken used (candidate (baseName P integration tool) i) := by
  rw [uniqueName]
  by_cases hbase : Taken used (candidate (baseName P integration tool) 0)
  · have hlookup : (used.lookup (slug P integration 20 ++ "__" ++ slug P tool 40)).isSome = true :=
      hbase
    simp only [hlookup, if_true]
    obtain ⟨k, hk, hfree⟩ := exists_free (baseName P integration tool) used
    have hpos : k ≠ 0 := by
      rintro rfl
      exact hfree hbase
    obtain ⟨j, rfl⟩ := Nat.exists_eq_succ_of_ne_zero hpos
    have hbound : ∃ j, 0 ≤ j ∧ j < 0 + used.length ∧
        ¬ Taken used (candidate (baseName P integration tool) (j + 1)) :=
          ⟨j, by omega, by omega, hfree⟩
    obtain ⟨j', -, heq, hfree', hbefore⟩ := firstFree_spec hbound
    refine ⟨j' + 1, heq, hfree', fun i hi => ?_⟩
    cases i with
    | zero => exact hbase
    | succ i => exact hbefore i (by omega) (by omega)
  · have hlookup : ¬ (used.lookup (slug P integration 20 ++ "__" ++ slug P tool 40)).isSome =
        true := hbase
    simp only [hlookup]
    exact ⟨0, rfl, hbase, fun i hi => by omega⟩

/-! ### What names are made of -/

theorem safe_replaceUnsafe (cs : List Char) : ∀ c ∈ replaceUnsafe cs, safeChar c = true := by
  induction cs with
  | nil => simp [replaceUnsafe]
  | cons c cs ih =>
    intro d hd
    rw [replaceUnsafe.eq_def] at hd
    dsimp only at hd
    have hcons : ∀ {e : Char}, safeChar e = true → d ∈ e :: replaceUnsafe cs →
      safeChar d = true := by
      intro e he hmem
      rcases List.mem_cons.mp hmem with rfl | hmem
      · exact he
      · exact ih d hmem
    split_ifs at hd with hc
    · exact hcons hc hd
    · split at hd
      · split_ifs at hd
        · exact hcons rfl hd
        · exact ih d hd
      · exact hcons rfl hd

theorem trimDashes_sublist (cs : List Char) : (trimDashes cs).Sublist cs := by
  unfold trimDashes
  exact (List.reverse_sublist.mpr (List.dropWhile_sublist _)).trans
    ((List.reverse_reverse _).symm ▸ List.dropWhile_sublist _)

theorem toList_slug (hn : 0 < n) :
    (slug P s n).toList ≠ [] ∧ (slug P s n).toList.length ≤ n ∧ ∀ c ∈ (slug P s n).toList,
    safeChar c = true := by
  have hsafe : ∀ {cs : List Char}, cs.Sublist (replaceUnsafe (s.toList.map P.lower)) →
      ∀ c ∈ cs, safeChar c = true := fun hsub c hc => safe_replaceUnsafe _ c (hsub.subset hc)
  -- What is left before the empty slug is replaced.
  have hcut : ∃ cs : List Char, slug P s n =
    (if cs = [] then "x" else String.ofList cs) ∧ cs.length ≤ n ∧
      ∀ c ∈ cs, safeChar c = true := by
    unfold slug
    dsimp only
    by_cases hlong : n < (trimDashes (replaceUnsafe (s.toList.map P.lower))).length
    · rw [if_pos hlong]
      refine ⟨_, rfl, ?_, hsafe ?_⟩
      · exact (trimDashes_sublist _).length_le.trans (List.length_take_le _ _)
      · exact (trimDashes_sublist _).trans ((List.take_sublist _ _).trans (trimDashes_sublist _))
    · rw [if_neg hlong]
      exact ⟨_, rfl, not_lt.mp hlong, hsafe (trimDashes_sublist _)⟩
  obtain ⟨cs, heq, hlen, hall⟩ := hcut
  rw [heq]
  split_ifs with hempty
  · exact ⟨by decide, hn, List.all_iff_forall_prop.mp (by decide)⟩
  · rw [String.toList_ofList]
    exact ⟨hempty, hlen, hall⟩

/-- The form of a name that the agent asks for: `[a-zA-Z0-9_-]{1,64}`. Source: `decide.py`
`_TOOL_NAME` -/
def ToolName (name : String) : Prop :=
  name.toList ≠ [] ∧ name.toList.length ≤ 64 ∧ ∀ c ∈ name.toList, safeChar c = true

instance : DecidablePred ToolName := fun name =>
  have := List.decidableBAll (fun c => safeChar c = true) name.toList
  inferInstanceAs (Decidable (_ ∧ _ ∧ _))

section

variable {P : Params} {integration tool : String}

variable (P integration tool) in
theorem safe_candidate (k : ℕ) :
    (candidate (baseName P integration tool) k).toList ≠ [] ∧
      ∀ c ∈ (candidate (baseName P integration tool) k).toList, safeChar c = true := by
  have hsep : ∀ c ∈ "__".toList, safeChar c = true := List.all_iff_forall_prop.mp (by decide)
  have hbase : ∀ c ∈ (baseName P integration tool).toList, safeChar c = true := by
    intro c hc
    simp only [baseName, String.toList_append, List.mem_append] at hc
    rcases hc with (hc | hc) | hc
    · exact (toList_slug (by decide)).2.2 c hc
    · exact hsep c hc
    · exact (toList_slug (by decide)).2.2 c hc
  have hne : (baseName P integration tool).toList ≠ [] := by simp [baseName, String.toList_append]
  cases k with
  | zero => exact ⟨hne, hbase⟩
  | succ k =>
    refine ⟨by simp [candidate, String.toList_append], fun c hc => ?_⟩
    simp only [candidate, String.toList_append, List.mem_append] at hc
    rcases hc with (hc | hc) | hc
    · exact hbase c hc
    · exact hsep c (by simpa using hc)
    · have hdigit : c.isDigit = true := by
        refine Nat.isDigit_of_mem_toDigits (by decide) le_rfl (n := k + 2) ?_
        rwa [← Nat.toList_repr]
      simp [safeChar, Char.isAlphanum, hdigit]

/-- Later candidates are not shorter. -/
theorem length_candidate_mono (base : String) (h : i ≤ j) :
    (candidate base i).toList.length ≤ (candidate base j).toList.length := by
  cases i with
  | zero =>
    cases j with
    | zero => exact le_rfl
    | succ j =>
      simp only [candidate, String.toList_append, List.length_append]
      omega
  | succ i =>
    obtain ⟨j, rfl⟩ : ∃ j', j = j' + 1 := ⟨j - 1, by omega⟩
    have hdigits : (toString (i + 2)).toList.length ≤ (toString (j + 2)).toList.length := by
      have hlist : ∀ n : ℕ, (toString n).toList = Nat.toDigits 10 n := fun n => Nat.toList_repr
      have hpos := Nat.length_toDigits_pos (b := 10) (n := j + 2)
      rw [hlist, hlist, Nat.length_toDigits_le_iff (by decide) hpos]
      have := (Nat.length_toDigits_le_iff (n := j + 2) (by decide) hpos).mp le_rfl
      omega
    simp only [candidate, String.toList_append, List.length_append]
    omega

/-- The names of the builtins, in every kind of catalog. -/
def builtinNames : List String :=
  ["recall_memory", "remember", "start_task", "confirm_action", "cancel_action", "run_on_computer"]

/-- Two underscores in a row are in no builtin's name. -/
theorem candidate_not_builtin (k : ℕ) :
    candidate (baseName P integration tool) k ∉ builtinNames := by
  have hbuiltin : ∀ name ∈ builtinNames, ¬ "__".toList <:+: name.toList := by decide +kernel
  have hwithin : "__".toList <:+: (baseName P integration tool).toList :=
    ⟨(slug P integration 20).toList, (slug P tool 40).toList, by
      simp [baseName, String.toList_append]⟩
  intro hmem
  refine hbuiltin _ hmem ?_
  cases k with
  | zero => exact hwithin
  | succ k =>
    simp only [candidate, String.toList_append, List.append_assoc]
    exact hwithin.trans (List.prefix_append _ _).isInfix

end

/-! ### What is added -/

/-- How a tool is shown to the model under its name. -/
def functionTool (p : String × McpTool) : FunctionTool :=
  ⟨p.1, p.2.shownDescription, p.2.inputSchemaJSON⟩

/-- What the name runs. -/
def toolTarget (p : String × McpTool) : String × Target :=
  (p.1, { p.2.target with description := p.2.shownDescription, parameters := p.2.inputSchemaJSON })

/-- The names and the tools that are added, in order. -/
def additions (P : Params) : Tools → List McpTool → ℕ → List (String × McpTool)
  | _, [], _ => []
  | _, _ :: _, 0 => []
  | used, t :: ts, limit + 1 =>
    if usableSchema P t.inputSchemaJSON then
      let p := (uniqueName P t.integrationName t.name used, t)
      p :: additions P (used ++ [toolTarget p]) ts limit
    else additions P used ts (limit + 1)

/-- Whenever a tool is added, one of the names that it could get has 64 characters at most and is
free. -/
def Roomy (P : Params) : Tools → List McpTool → ℕ → Prop
  | _, [], _ => True
  | _, _ :: _, 0 => True
  | used, t :: ts, limit + 1 =>
    if usableSchema P t.inputSchemaJSON then
      (∃ k, (candidate (baseName P t.integrationName t.name) k).toList.length ≤ 64 ∧
        ¬ Taken used (candidate (baseName P t.integrationName t.name) k)) ∧
      Roomy P (used ++ [toolTarget (uniqueName P t.integrationName t.name used, t)]) ts limit
    else Roomy P used ts (limit + 1)

section

variable {P : Params} {ts : List McpTool} {limit : ℕ}

theorem addTool_fresh (h : ¬ Taken used name) :
    addTool used name description parameters target = used ++
    [(name, { target with description, parameters })] := by
  rw [addTool, setTarget]
  congr 1
  refine List.filter_eq_self.mpr fun kv hkv => decide_eq_true ?_
  rintro rfl
  exact h (taken_iff.mpr (List.mem_map_of_mem hkv))

theorem not_taken_uniqueName (integration tool : String) :
    ¬ Taken used (uniqueName P integration tool used) := by
  obtain ⟨k, heq, hfree, -⟩ := uniqueName_spec P integration tool used
  rw [heq]
  exact hfree

/-- **The loop appends the additions.** -/
theorem addIntegrations_eq (c : Catalog) (ts : List McpTool) (limit : ℕ) :
    c.addIntegrations P ts limit = ⟨c.tools ++ (additions P c.targets ts limit).map functionTool,
      c.targets ++ (additions P c.targets ts limit).map toolTarget⟩ := by
  induction ts generalizing c limit with
  | nil => simp [Catalog.addIntegrations, additions]
  | cons t ts ih =>
    cases limit with
    | zero => simp [Catalog.addIntegrations, additions]
    | succ limit =>
      rw [Catalog.addIntegrations, additions]
      split_ifs
      · rw [ih, Catalog.add, addTool_fresh (not_taken_uniqueName _ _)]
        simp [functionTool, toolTarget]
      · exact ih c (limit + 1)

/-- **Which tools are added**: the first ones with a usable schema. -/
theorem additions_snd (used : Tools) (ts : List McpTool) (limit : ℕ) :
    (additions P used ts limit).map Prod.snd =
      (ts.filter fun t => usableSchema P t.inputSchemaJSON).take limit := by
  induction ts generalizing used limit with
  | nil => simp [additions]
  | cons t ts ih =>
    cases limit with
    | zero => simp [additions]
    | succ limit =>
      rw [additions, List.filter_cons]
      split_ifs
      · rw [List.map_cons, ih, List.take_succ_cons]
      · exact ih used (limit + 1)

theorem additions_candidate (h : p ∈ additions P used ts limit) :
    ∃ k, p.1 = candidate (baseName P p.2.integrationName p.2.name) k := by
  induction ts generalizing used limit with
  | nil => simp [additions] at h
  | cons t ts ih =>
    cases limit with
    | zero => simp [additions] at h
    | succ limit =>
      rw [additions] at h
      split_ifs at h
      · rcases List.mem_cons.mp h with rfl | h
        · obtain ⟨k, heq, -⟩ := uniqueName_spec P t.integrationName t.name used
          exact ⟨k, heq⟩
        · exact ih h
      · exact ih h

/-- The names that are added are new. -/
theorem additions_nodup (h : (used.map Prod.fst).Nodup) :
    (used.map Prod.fst ++ (additions P used ts limit).map Prod.fst).Nodup := by
  induction ts generalizing used limit with
  | nil => simpa [additions] using h
  | cons t ts ih =>
    cases limit with
    | zero => simpa [additions] using h
    | succ limit =>
      rw [additions]
      split_ifs
      · let name := uniqueName P t.integrationName t.name used
        have hfree : name ∉ used.map Prod.fst := fun hmem =>
          not_taken_uniqueName _ _ (taken_iff.mpr hmem)
        have hused : ((used ++ [toolTarget (name, t)]).map Prod.fst).Nodup := by
          rw [List.map_append, List.nodup_append]
          refine ⟨h, by simp, ?_⟩
          rintro a ha b hb rfl
          obtain rfl := List.mem_singleton.mp hb
          exact hfree ha
        have hrest := @ih _ limit hused
        rw [List.map_append, List.append_assoc] at hrest
        exact hrest
      · exact ih h

/-- **When all names are short enough.** -/
theorem short_iff_roomy :
    (∀ p ∈ additions P used ts limit, p.1.toList.length ≤ 64) ↔ Roomy P used ts limit := by
  induction ts generalizing used limit with
  | nil => simp [additions, Roomy]
  | cons t ts ih =>
    cases limit with
    | zero => simp [additions, Roomy]
    | succ limit =>
      rw [additions, Roomy]
      split_ifs
      · rw [List.forall_mem_cons, ih]
        refine and_congr_left fun _ => ?_
        obtain ⟨k, heq, hfree, hbefore⟩ := uniqueName_spec P t.integrationName t.name used
        dsimp only
        rw [heq]
        constructor
        · exact fun hlen => ⟨k, hlen, hfree⟩
        · rintro ⟨j, hlen, hj⟩
          -- The candidates before `k` are taken, so `j` is not one of them.
          have hkj : k ≤ j := not_lt.mp fun hlt => hj (hbefore j hlt)
          exact (length_candidate_mono _ hkj).trans hlen
      · exact ih

end

/-! ### The catalog -/

theorem builtins_fst (P : Params) (voice : Bool) (devices : List Device) :
    (builtins P voice devices).map Prod.fst = ["recall_memory", "remember"] ++
      (if voice then ["start_task", "confirm_action", "cancel_action"] else []) ++
      (if devices = [] then [] else ["run_on_computer"]) := by
  cases voice <;> cases devices <;> rfl

theorem builtins_fst_spec (P : Params) (voice : Bool) (devices : List Device) :
    ((builtins P voice devices).map Prod.fst).Nodup ∧
      ∀ name ∈ (builtins P voice devices).map Prod.fst, ToolName name := by
  rw [builtins_fst]
  cases voice <;> by_cases h : devices = [] <;> simp only [h, if_true, if_false] <;> decide +kernel

/-- What a catalog that was built from these tools has to be. -/
structure Catalog.Sound (P : Params) (voice : Bool) (devices : List Device) (tools : List McpTool)
    (limit : ℕ) (c : Catalog) : Prop where
  /-- No name is there twice. -/
  distinct : (c.tools.map FunctionTool.name).Nodup
  /-- The agent takes every name. -/
  names : ∀ t ∈ c.tools, ToolName t.name
  /-- Every name runs what it was added for: a builtin, or a tool of an integration. -/
  added : ∃ added : List (String × McpTool),
    c.tools = (Catalog.ofTools (builtins P voice devices)).tools ++ added.map functionTool ∧
    (∀ kv ∈ builtins P voice devices, c.targets.lookup kv.1 = some kv.2) ∧
    (∀ p ∈ added, c.targets.lookup p.1 = some (toolTarget p).2) ∧
    (∀ p ∈ added, p.1 ∉ builtinNames) ∧
    added.length ≤ limit ∧
    (added.map Prod.snd).Sublist (readOnlyFirst tools) ∧
    -- Read-only tools come first.
    ((∃ p ∈ added, p.2.readOnly = false) → (added.map Prod.snd).filter (·.readOnly) =
      (tools.filter fun t => usableSchema P t.inputSchemaJSON).filter (·.readOnly))

theorem lookup_of_nodup {tools : Tools} (h : (tools.map Prod.fst).Nodup) {kv : String × Target}
    (hkv : kv ∈ tools) : tools.lookup kv.1 = some kv.2 := by
  obtain ⟨before, after, rfl⟩ := List.append_of_mem hkv
  refine List.lookup_eq_some_iff.mpr ⟨before, after, rfl, fun p hp => ?_⟩
  rw [List.map_append, List.nodup_append] at h
  have hne := h.2.2 p.1 (List.mem_map_of_mem hp) kv.1 (by simp)
  simpa using Ne.symm hne

/-- If a tool that is not read-only is taken, all the read-only ones before it are. -/
theorem filter_readOnly_take {l : List McpTool}
    (h : ∃ t ∈ (l.filter (·.readOnly) ++ l.filter (!·.readOnly)).take n, t.readOnly = false) :
    ((l.filter (·.readOnly) ++ l.filter (!·.readOnly)).take n).filter (·.readOnly) =
    l.filter (·.readOnly) := by
  obtain ⟨t, ht, hread⟩ := h
  have hlen : (l.filter (·.readOnly)).length ≤ n := by
    by_contra hlt
    rw [List.take_append_of_le_length (by omega)] at ht
    have := List.of_mem_filter (List.mem_of_mem_take ht)
    rw [hread] at this
    cases this
  have hnone : ((l.filter (!·.readOnly)).take (n - (l.filter (·.readOnly)).length)).filter
    (·.readOnly) = [] := by
    refine List.filter_eq_nil_iff.mpr fun t ht => ?_
    have := List.of_mem_filter (List.mem_of_mem_take ht)
    simpa using this
  rw [List.take_append, List.filter_append, hnone, List.append_nil, List.take_of_length_le hlen,
    List.filter_filter]
  simp

/-- **The tool catalog**: building it ends; its names are distinct, each runs what it was added for,
and read-only tools come first; and the agent takes all its names if there is always a short one
left. -/
theorem catalog_sound_iff (P : Params) (voice : Bool) (devices : List Device)
    (tools : List McpTool) (limit : ℕ) :
    (∀ integration tool used, ∃ k, uniqueName P integration tool used =
      candidate (baseName P integration tool) k ∧
      ¬ Taken used (candidate (baseName P integration tool) k) ∧
      ∀ i < k, Taken used (candidate (baseName P integration tool) i)) ∧
    ((buildCatalog P voice devices tools limit).Sound P voice devices tools limit ↔
      Roomy P (builtins P voice devices) (readOnlyFirst tools) limit) := by
  refine ⟨uniqueName_spec P, ?_⟩
  let added := additions P (builtins P voice devices) (readOnlyFirst tools) limit
  have hcatalog : buildCatalog P voice devices tools limit =
      ⟨(Catalog.ofTools (builtins P voice devices)).tools ++ added.map functionTool,
        builtins P voice devices ++ added.map toolTarget⟩ := addIntegrations_eq _ _ _
  obtain ⟨hbuiltins, hbuiltinNames⟩ := builtins_fst_spec P voice devices
  have hnodup : ((builtins P voice devices).map Prod.fst ++ added.map Prod.fst).Nodup :=
    additions_nodup hbuiltins
  have htools : ((Catalog.ofTools (builtins P voice devices)).tools ++ added.map functionTool).map
    FunctionTool.name =
      (builtins P voice devices).map Prod.fst ++ added.map Prod.fst := by
    rw [List.map_append, Catalog.ofTools, List.map_map, List.map_map]
    rfl
  have htargets : ((builtins P voice devices ++ added.map toolTarget).map Prod.fst).Nodup := by
    rw [List.map_append, List.map_map]
    exact hnodup
  have hsnd : added.map Prod.snd = ((readOnlyFirst tools).filter fun t =>
    usableSchema P t.inputSchemaJSON).take limit :=
    additions_snd _ _ _
  rw [hcatalog, ← short_iff_roomy]
  constructor
  · intro h p hp
    exact (h.names (functionTool p) (List.mem_append_right _ (List.mem_map_of_mem hp))).2.1
  · intro hshort
    refine ⟨htools ▸ hnodup, fun t ht => ?_, added, rfl, fun kv hkv => ?_, fun p hp =>
      ?_, fun p hp => ?_, ?_, ?_, ?_⟩
    · rcases List.mem_append.mp ht with ht | ht
      · obtain ⟨kv, hkv, rfl⟩ := List.mem_map.mp ht
        exact hbuiltinNames kv.1 (List.mem_map_of_mem hkv)
      · obtain ⟨p, hp, rfl⟩ := List.mem_map.mp ht
        obtain ⟨k, hname⟩ := additions_candidate hp
        have hlen := hshort p hp
        rw [hname] at hlen
        have hsafe := safe_candidate P p.2.integrationName p.2.name k
        rw [functionTool, hname]
        exact ⟨hsafe.1, hlen, hsafe.2⟩
    · exact lookup_of_nodup htargets (List.mem_append_left _ hkv)
    · exact lookup_of_nodup htargets
        (List.mem_append_right _ (List.mem_map_of_mem (f := toolTarget) hp))
    · obtain ⟨k, hname⟩ := additions_candidate hp
      rw [hname]
      exact candidate_not_builtin k
    · rw [← List.length_map (f := Prod.snd), hsnd]
      exact List.length_take_le _ _
    · rw [hsnd]
      exact (List.take_sublist _ _).trans List.filter_sublist
    · rintro ⟨p, hp, hread⟩
      have horder : (readOnlyFirst tools).filter (fun t => usableSchema P t.inputSchemaJSON) =
          (tools.filter fun t => usableSchema P t.inputSchemaJSON).filter (·.readOnly) ++
            (tools.filter fun t => usableSchema P t.inputSchemaJSON).filter (!·.readOnly) := by
        simp only [readOnlyFirst, List.filter_append, List.filter_filter, Bool.and_comm]
      rw [hsnd, horder]
      refine filter_readOnly_take ⟨p.2, ?_, hread⟩
      rw [← horder, ← hsnd]
      exact List.mem_map_of_mem hp

/-- A tool whose name is cut. -/
def longTool : McpTool :=
  ⟨"1", "aaaaaaaaaaaaaaaaaaaa", "bbbbbbbbbbbbbbbbbbbbbbbbbbbbbbbbbbbbbbbb", "", "",
    "\x7b\"type\":\"object\"\x7d", true⟩

/-- The tenth tool with the same name. -/
theorem name_too_long :
    ∃ t ∈ (buildCatalog sample false [] (List.replicate 10 longTool) 100).tools,
    t.name.toList.length = 65 := by
  decide +kernel

end Jarvis.Orchestrator
