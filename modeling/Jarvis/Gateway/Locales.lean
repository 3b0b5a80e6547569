import Jarvis.Orchestrator.Acceptance

/-!
# The voice gateway: the locale of a session

What the gateway checks when a session starts, the request it then makes of the orchestrator, and
what the orchestrator checks of that. Sources: `readStart` and `resolve` in
`services/voice-gateway/internal/session/session.go`, `openJarvis` in `jarvis.go`, and
`OpenConversation` in `services/orchestrator/internal/server/server.go`.

Both check the locale against a pattern, but not the same one: the gateway takes subtags of one
character, the orchestrator does not. `opens_iff`: which of the sessions that the gateway starts
have a conversation.
-/

namespace Jarvis.Gateway

open Orchestrator (Params UUID printable parseOwner)

/-! ### Language tags -/

/-- The patterns `^[A-Za-z]{2,3}(-[A-Za-z0-9]{low,8}){0,most}$`; without `most`, any number of
subtags. -/
def languageTag (low : ℕ) (most : Option ℕ) (s : String) : Bool :=
  match s.toList.splitOn '-' with
  | [] => false
  | language :: subtags =>
    decide (2 ≤ language.length) && decide (language.length ≤ 3) && language.all Char.isAlpha &&
      most.all (fun n => subtags.length ≤ n) &&
      subtags.all fun t => decide (low ≤ t.length) && decide (t.length ≤ 8) && t.all Char.isAlphanum

/-- Source: `session.go` `localePattern` -/
def localePattern : String → Bool := languageTag 1 (some 4)

/-- Source: `server.go` `locale` -/
def locale : String → Bool := languageTag 2 none

/-! ### The gateway -/

/-- Source: `common.proto` `Provider` -/
inductive ProviderKind where
  | unspecified
  | openAI
  | xAI
  | anthropic
  | google
  | unknown (number : ℕ)
  deriving DecidableEq, Repr

/-- The text of the enumeration's value. -/
def ProviderKind.text : ProviderKind → String
  | .unspecified => "PROVIDER_UNSPECIFIED"
  | .openAI => "PROVIDER_OPENAI"
  | .xAI => "PROVIDER_XAI"
  | .anthropic => "PROVIDER_ANTHROPIC"
  | .google => "PROVIDER_GOOGLE"
  | .unknown number => toString number

/-- The message `StartSession`. -/
structure StartSession where
  provider : ProviderKind
  voice : String
  locale : String
  deriving DecidableEq, Repr

/-- Source: `realtime.Provider`, as far as a session starts with it -/
structure ProviderSettings where
  name : String
  defaultVoice : String
  deriving DecidableEq, Repr

/-- Source: `session.Config`; only these two providers can be configured -/
structure Config where
  defaultProvider : ProviderKind
  providers : List (ProviderKind × ProviderSettings)
  known : ∀ p ∈ providers, p.1 = .openAI ∨ p.1 = .xAI

/-- The first message of a client. -/
inductive ClientMessage where
  | startSession (start : StartSession)
  | other
  deriving DecidableEq, Repr

/-- Source: `readStart`; a message that cannot be read is an error -/
def readStart (read : Except String ClientMessage) : Except String StartSession := do
  match ← read with
  | .startSession start => pure start
  | .other => .error "the first message must be StartSession"

/-- Source: `session.go` `voicePattern` -/
def voicePattern (s : String) : Bool :=
  let lower (c : Char) : Bool := c.isLower || c.isDigit
  match s.toList with
  | [] => false
  | c :: cs => lower c && decide (cs.length ≤ 31) && cs.all fun c => lower c || c = '_' || c = '-'

/-- Source: `resolve` -/
def resolve (cfg : Config) (start : StartSession) : Except String
    (ProviderKind × ProviderSettings × String) := do
  let kind := if start.provider = .unspecified then cfg.defaultProvider else start.provider
  let provider ← okOr s!"provider {kind.text} is not enabled on this gateway"
    (cfg.providers.lookup kind)
  let voice := if start.voice = "" then provider.defaultVoice else start.voice
  ensure (voicePattern voice = true) "voice must be 1-32 characters of a-z 0-9 _ -"
  ensure (start.locale = "" ∨ start.locale.utf8ByteSize ≤ 35 ∧ localePattern start.locale = true)
    "locale must be a BCP 47 tag such as el-GR"
  pure (kind, provider, voice)

/-- What a session is started with. Source: `run`, up to the limit of sessions -/
def startUp (cfg : Config) (read : Except String ClientMessage) :
    Except String (StartSession × ProviderKind × ProviderSettings × String) := do
  let start ← readStart read
  let resolved ← resolve cfg start
  pure (start, resolved)

/-- The message `OpenConversationRequest`. -/
structure OpenConversationRequest where
  tenantId : String
  userId : String
  sessionId : String
  provider : ProviderKind
  locale : String
  deriving DecidableEq, Repr

/-- Source: `openJarvis`; `sessionId` is `uuid.NewString()` -/
def openJarvis (tenantId userId sessionId : String) (kind : ProviderKind) (start : StartSession) :
    OpenConversationRequest :=
  ⟨tenantId, userId, sessionId, kind, start.locale⟩

/-! ### The orchestrator -/

/-- Source: `OpenConversation`, up to the call of the engine -/
def openConversation (P : Params) (req : OpenConversationRequest) : Except String (UUID × String) :=
  do
  let owner ← parseOwner P req.tenantId req.userId
  ensure (req.sessionId = "" ∨ printable req.sessionId 1 128 = true)
    "session_id must be up to 128 printable ASCII characters"
  ensure (req.provider = .openAI ∨ req.provider = .xAI) "provider must be OpenAI or xAI"
  ensure (req.locale = "" ∨ locale req.locale = true) "locale must be a language tag such as el-GR"
  pure owner

/-! ### The two patterns -/

/-- What the parts of a tag have to be. -/
structure Tag (low : ℕ) (most : Option ℕ) (language : List Char)
    (subtags : List (List Char)) : Prop where
  two : 2 ≤ language.length
  three : language.length ≤ 3
  letters : ∀ c ∈ language, c.isAlpha = true
  number : ∀ n, most = some n → subtags.length ≤ n
  subtags : ∀ t ∈ subtags, low ≤ t.length ∧ t.length ≤ 8 ∧ ∀ c ∈ t, c.isAlphanum = true

section

variable {low : ℕ} {most : Option ℕ} {s : String} {language : List Char}
  {subtags : List (List Char)}

/-- A tag is accepted by its parts. -/
theorem languageTag_of_splitOn (h : s.toList.splitOn '-' = language :: subtags) :
    languageTag low most s = true ↔ Tag low most language subtags := by
  rw [languageTag, h]
  simp only [Bool.and_eq_true, decide_eq_true_eq, List.all_eq_true, Option.all_eq_true_iff_get]
  constructor
  · rintro ⟨⟨⟨⟨htwo, hthree⟩, hletters⟩, hnumber⟩, hsubtags⟩
    refine ⟨htwo, hthree, hletters, ?_, fun t ht => ?_⟩
    · rintro n rfl
      exact hnumber rfl
    · obtain ⟨⟨hlow, hhigh⟩, hall⟩ := hsubtags t ht
      exact ⟨hlow, hhigh, hall⟩
  · rintro ⟨htwo, hthree, hletters, hnumber, hsubtags⟩
    refine ⟨⟨⟨⟨htwo, hthree⟩, hletters⟩, ?_⟩, fun t ht => ?_⟩
    · intro hsome
      exact hnumber _ (Option.eq_some_of_isSome hsome)
    · obtain ⟨hlow, hhigh, hall⟩ := hsubtags t ht
      exact ⟨⟨hlow, hhigh⟩, hall⟩

/-- An accepted tag has a first part. -/
theorem splitOn_of_languageTag (h : languageTag low most s = true) :
    ∃ language subtags, s.toList.splitOn '-' = language :: subtags ∧
    Tag low most language subtags := by
  cases hparts : s.toList.splitOn '-' with
  | nil =>
    rw [languageTag, hparts] at h
    cases h
  | cons language subtags => exact ⟨language, subtags, rfl, (languageTag_of_splitOn hparts).mp h⟩

end

/-- **The locales that both services take**: of those that the gateway takes, the ones without a
subtag of one character. -/
theorem locale_iff (h : localePattern s = true) :
    locale s = true ↔ ∀ t ∈ (s.toList.splitOn '-').tail, t.length ≠ 1 := by
  obtain ⟨language, subtags, hparts, htag⟩ := splitOn_of_languageTag h
  rw [locale, languageTag_of_splitOn hparts, hparts, List.tail_cons]
  constructor
  · intro htag' t ht
    have := (htag'.subtags t ht).1
    omega
  · intro hone
    refine ⟨htag.two, htag.three, htag.letters, nofun, fun t ht => ?_⟩
    obtain ⟨hlow, hhigh, hall⟩ := htag.subtags t ht
    have := hone t ht
    exact ⟨by omega, hhigh, hall⟩

/-! ### The two services -/

variable {cfg : Config} {read : Except String ClientMessage} {start : StartSession}
  {kind : ProviderKind} {provider : ProviderSettings} {voice : String}

/-- What the gateway has checked. -/
theorem startUp_eq_ok (h : startUp cfg read = .ok (start, kind, provider, voice)) :
    (kind = .openAI ∨ kind = .xAI) ∧ (start.locale = "" ∨ localePattern start.locale = true) := by
  obtain ⟨_, -, h⟩ := bind_eq_ok.mp h
  obtain ⟨_, hresolve, h⟩ := bind_eq_ok.mp h
  obtain ⟨rfl, rfl⟩ := Prod.mk.inj (Except.ok.inj h)
  have h := hresolve
  unfold resolve at h
  obtain ⟨settings, hsettings, h⟩ := bind_eq_ok.mp h
  obtain ⟨-, h⟩ := ensure_bind_eq_ok.mp h
  obtain ⟨hlocale, h⟩ := ensure_bind_eq_ok.mp h
  obtain ⟨rfl, -⟩ := Prod.mk.inj (Except.ok.inj h)
  refine ⟨?_, hlocale.imp_right And.right⟩
  obtain ⟨before, after, heq, -⟩ := List.lookup_eq_some_iff.mp (okOr_eq_ok.mp hsettings)
  exact cfg.known _ (heq ▸ List.mem_append_right _ List.mem_cons_self)

/-- **Which sessions have a conversation.** For every user and every tenant, the request of a
session that the gateway starts passes the orchestrator's checks if and only if the tenant is not
the nil UUID and no subtag of the locale has one character. -/
theorem opens_iff {P : Params} {tenantId userId sessionId : String} {id : UUID}
    (hparse : P.parseUUID tenantId = some id) (htenant : P.uuidText id = tenantId)
    (huser : printable userId 1 128 = true) (hsession : printable sessionId 1 128 = true)
    (hstart : startUp cfg read = .ok (start, kind, provider, voice)) :
    Succeeds (openConversation P (openJarvis tenantId userId sessionId kind start)) ↔
      id ≠ 0 ∧ ∀ t ∈ (start.locale.toList.splitOn '-').tail, t.length ≠ 1 := by
  obtain ⟨hkind, hlocale⟩ := startUp_eq_ok hstart
  have hboth : (start.locale = "" ∨ locale start.locale = true) ↔
      ∀ t ∈ (start.locale.toList.splitOn '-').tail, t.length ≠ 1 := by
    rcases hlocale with hempty | hpattern
    · rw [hempty]
      simp
    · rw [← locale_iff hpattern]
      refine or_iff_right_of_imp fun hempty => ?_
      rw [hempty] at hpattern
      exact absurd hpattern (by decide)
  rw [← hboth]
  unfold openConversation openJarvis parseOwner
  simp only [hparse, okOr, ok_bind]
  constructor
  · rintro ⟨owner, h⟩
    obtain ⟨_, howner, h⟩ := bind_eq_ok.mp h
    obtain ⟨hid, -⟩ := ensure_bind_eq_ok.mp howner
    obtain ⟨-, h⟩ := ensure_bind_eq_ok.mp h
    obtain ⟨-, h⟩ := ensure_bind_eq_ok.mp h
    obtain ⟨hlocale, -⟩ := ensure_bind_eq_ok.mp h
    exact ⟨hid.1, hlocale⟩
  · rintro ⟨hid, hlocale⟩
    refine ⟨(id, userId), ?_⟩
    rw [ensure_of ⟨hid, htenant⟩, ok_bind, ensure_of huser, ok_bind]
    refine bind_eq_ok.mpr ⟨(id, userId), rfl, ?_⟩
    rw [ensure_of (.inr hsession), ok_bind, ensure_of hkind, ok_bind, ensure_of hlocale, ok_bind]
    rfl

/-- A gateway with one provider. -/
def oneProvider : Config where
  defaultProvider := .openAI
  providers := [(.openAI, ⟨"openai", "marin"⟩)]
  known := by decide

/-- A session in Greek is started, and gets its conversation. -/
theorem opens_iff_greek :
    startUp oneProvider (.ok (.startSession ⟨.unspecified, "", "el-GR"⟩)) =
        .ok (⟨.unspecified, "", "el-GR"⟩, .openAI, ⟨"openai", "marin"⟩, "marin") ∧
      Succeeds (openConversation Orchestrator.sample
        (openJarvis (Orchestrator.idText 1) "ann" "s" .openAI ⟨.unspecified, "", "el-GR"⟩)) := by
  have hstart : startUp oneProvider (.ok (.startSession ⟨.unspecified, "", "el-GR"⟩)) =
      .ok (⟨.unspecified, "", "el-GR"⟩, .openAI, ⟨"openai", "marin"⟩, "marin") := by decide +kernel
  have hparse : Orchestrator.sample.parseUUID (Orchestrator.idText 1) = some 1 := by decide +kernel
  exact ⟨hstart, (opens_iff hparse rfl (by decide) (by decide) hstart).mpr ⟨by decide, by decide⟩⟩

/-- A locale with an extension: the gateway starts the session, and the orchestrator refuses the
conversation. -/
theorem refused_extension :
    startUp oneProvider (.ok (.startSession ⟨.unspecified, "", "el-GR-u-hc-h12"⟩)) =
        .ok (⟨.unspecified, "", "el-GR-u-hc-h12"⟩, .openAI, ⟨"openai", "marin"⟩, "marin") ∧
      openConversation Orchestrator.sample (openJarvis (Orchestrator.idText 1) "ann" "s" .openAI
        ⟨.unspecified, "", "el-GR-u-hc-h12"⟩) =
        .error "locale must be a language tag such as el-GR" := by
  decide +kernel

end Jarvis.Gateway
