import Jarvis.Pool
import Mathlib

/-!
# The MCP router: when an integration needs its user again

The requests of a session, the tokens they carry, and what the MCP server and the token endpoint
answer. Source: `credentials` in `services/mcp-router/internal/upstream/upstream.go`, `savingSource`
and `staticSource` in `internal/oauthflow/oauthflow.go`. The SDK takes a token from the source for
each request, calls `Authorize` when the server has answered 401 or 403, and then tries again. A
refresh holds the mutex of the live token to its end; other sessions of the integration share that
token. Whether refreshed tokens can be stored changes nothing here, and the status is taken to be
written whenever the code writes it. What was answered is kept (`Fact`).
-/

namespace Jarvis.Mcp.Reconsent

open Steps Pool Relation

/-! ### Source -/

/-- Source: `oauth2.Token`. Whether it has expired is a choice of each step. -/
structure Token where
  accessToken : String
  refreshToken : String
  deriving DecidableEq

/-- What has happened: the MCP server's answers, by the token of the request; the token endpoint's;
and that there was nothing to refresh with. -/
inductive Fact where
  | answered (token : String) (status : ℕ)
  | replaced (old new : String)
  | refused (code : String)
  | nothingLeft
  deriving DecidableEq

/-- The source (`savingSource` if `refreshable`, else `staticSource`) and its live token,
`credentials.unproven`, and whether the integration's status is `needs_reauth`. -/
structure DB where
  refreshable : Bool
  live : Token
  unproven : String
  needsReauth : Bool
  facts : List Fact

/-- What a refresh comes to: a token, a `RetrieveError` with its code, or any other error. -/
inductive Endpoint where
  | token (t : Token)
  | retrieveError (code : String)
  | failed

inductive Failure where
  | cannotRefresh
  | transient
  deriving DecidableEq

/-- A request. `answered`: `RoundTrip` has the answer and takes the mutex next; `challenged`,
`refreshed`, `obtained`: in `Authorize`, before `Refresh`, after it, and with the token that is
current then. -/
inductive Stage where
  | begun
  | sending (token : String)
  | answered (token : String) (status : ℕ)
  | challenged (token : String) (status : ℕ)
  | refreshed (token : String)
  | obtained (token next : String)
  deriving DecidableEq

inductive Reply where
  | passed (status : ℕ)
  | failed
  | needsReauth
  deriving DecidableEq

/-- What is not the session's to decide; a request without an answer has failed. -/
structure Choice where
  expired : Bool
  endpoint : Endpoint
  answer : Option ℕ

/-- Source: `permanentRefreshErrors` -/
def permanentRefreshErrors : List String :=
  ["invalid_grant", "invalid_client", "unauthorized_client", "invalid_scope"]

namespace DB

/-- Source: `MarkNeedsReauth` -/
def mark (d : DB) : DB := { d with needsReauth := true }

def note (d : DB) (f : Fact) : DB := { d with facts := f :: d.facts }

/-- Source: `refreshLocked`. The library keeps the refresh token if the endpoint sends none. -/
def refreshLocked (d : DB) (a : Endpoint) : DB × Option Failure :=
  if d.live.refreshToken = "" then ((d.note .nothingLeft).mark, some .cannotRefresh)
  else
    match a with
    | .token t =>
      ({ d with
        live := ⟨t.accessToken, if t.refreshToken = "" then d.live.refreshToken else t.refreshToken⟩
        facts := .replaced d.live.accessToken t.accessToken :: d.facts }, none)
    | .retrieveError code =>
      if code ∈ permanentRefreshErrors then ((d.note (.refused code)).mark, some .cannotRefresh)
      else (d, some .transient)
    | .failed => (d, some .transient)

/-- Source: `Token` -/
def token (d : DB) (v : Choice) : DB × Except Failure String :=
  if d.refreshable ∧ (v.expired ∨ d.live.accessToken = "") then
    match d.refreshLocked v.endpoint with
    | (d, none) => (d, .ok d.live.accessToken)
    | (d, some e) => (d, .error e)
  else (d, .ok d.live.accessToken)

/-- Source: `Refresh` -/
def refresh (d : DB) (rejected : String) (a : Endpoint) : DB × Option Failure :=
  if d.refreshable then
    if d.live.accessToken ≠ rejected then (d, none) else d.refreshLocked a
  else (d.note .nothingLeft, some .cannotRefresh)

/-- Source: `RoundTrip`, with the answer. The SDK passes 401 and 403 on to `Authorize`. -/
def roundTrip (d : DB) (token : String) (status : ℕ) : Outcome DB Stage Reply :=
  if d.unproven ≠ "" ∧ token = d.unproven ∧ (status = 401 ∨ status = 403) then
    .done d.mark .needsReauth
  else if status = 401 ∨ status = 403 then .more d (.challenged token status)
  else
    .done { d with
      unproven := if d.unproven ≠ "" ∧ token = d.unproven ∧ status < 400 then "" else d.unproven }
      (.passed status)

end DB

/-- Source: `Authorize`, after an error of the source -/
def giveUp (d : DB) : Failure → Outcome DB Stage Reply
  | .cannotRefresh => .done d.mark .needsReauth
  | .transient => .done d .failed

/-- Source: `Authorize`, and the SDK around it -/
def next (d : DB) (v : Choice) : Stage → Option (Outcome DB Stage Reply)
  | .begun =>
    match d.token v with
    | (d, .ok token) => some (.more d (.sending token))
    | (d, .error _) => some (.done d .failed)
  | .sending token =>
    match v.answer with
    | none => some (.done d .failed)
    | some status => some (.more (d.note (.answered token status)) (.answered token status))
  | .answered token status => some (d.roundTrip token status)
  | .challenged token status =>
    if status = 401 then
      match d.refresh token v.endpoint with
      | (d, none) => some (.more d (.refreshed token))
      | (d, some e) => some (giveUp d e)
    else some (.done d.mark .needsReauth)
  | .refreshed token =>
    match d.token v with
    | (d, .ok current) => some (.more d (.obtained token current))
    | (d, .error e) => some (giveUp d e)
  | .obtained _ current => some (.more { d with unproven := current } .begun)

/-- The requests of one session; a refresh may also be another session's. -/
def session : System DB Unit Stage Reply Choice Endpoint where
  enter _ := .begun
  next d _ t _ v := next d v t
  env a d := some (d.refreshLocked a).1

/-- A session whose integration is connected. -/
def DB.new (refreshable : Bool) (live : Token) : DB := ⟨refreshable, live, "", false, []⟩

/-! ### Tokens that replaced others -/

section

variable {d d' : DB} {facts : List Fact} {a b : String} {v : Choice}

/-- A token has replaced another one, or one that did. -/
def Replaced (facts : List Fact) : String → String → Prop :=
  TransGen fun x y => .replaced x y ∈ facts

/-- Why the user is needed. -/
def Cause (facts : List Fact) : Prop :=
  (∃ t, .answered t 403 ∈ facts) ∨
  (∃ old t, .answered old 401 ∈ facts ∧ Replaced facts old t ∧
    (.answered t 401 ∈ facts ∨ .answered t 403 ∈ facts)) ∨
  (∃ code ∈ permanentRefreshErrors, .refused code ∈ facts) ∨ .nothingLeft ∈ facts

/-- One token was replaced by the other, unless they are the same. -/
def Since (facts : List Fact) (a b : String) : Prop := a = b ∨ Replaced facts a b

variable {facts' : List Fact} {t : Stage}

theorem Replaced.mono (h : Replaced facts a b) (hsub : facts ⊆ facts') : Replaced facts' a b :=
  TransGen.mono (fun _ _ hxy => hsub hxy) _ _ h

theorem Cause.mono (h : Cause facts) (hsub : facts ⊆ facts') : Cause facts' := by
  rcases h with ⟨t, ht⟩ | ⟨old, t, hold, hrep, ht⟩ | ⟨code, hcode, hc⟩ | hn
  · exact .inl ⟨t, hsub ht⟩
  · exact .inr (.inl ⟨old, t, hsub hold, hrep.mono hsub, ht.imp (@hsub _) (@hsub _)⟩)
  · exact .inr (.inr (.inl ⟨code, hcode, hsub hc⟩))
  · exact .inr (.inr (.inr (hsub hn)))

/-- What a step of the source leaves: nothing is forgotten, and the live token is the one before, or
replaced it; the status is written with a cause only. -/
structure Later (d d' : DB) : Prop where
  facts : d.facts ⊆ d'.facts
  live : Since d'.facts d.live.accessToken d'.live.accessToken
  unproven : d'.unproven = d.unproven
  cause : d'.needsReauth = true → d.needsReauth = true ∨ Cause d'.facts

theorem Later.refl (d : DB) : Later d d := ⟨List.Subset.refl _, .inl rfl, rfl, .inl⟩

/-- Something else has happened. -/
theorem Later.note (d : DB) (f : Fact) : Later d (d.note f) :=
  ⟨List.subset_cons_self _ _, .inl rfl, rfl, .inl⟩

/-- The status is written. -/
theorem Later.mark (h : Later d d') (hc : Cause d'.facts) : Later d d'.mark :=
  ⟨h.facts, h.live, h.unproven, fun _ => .inr hc⟩

/-- A token of the past is still one. -/
theorem Since.later (h : Since d.facts a d.live.accessToken) (hl : Later d d') :
    Since d'.facts a d'.live.accessToken := by
  rcases h with rfl | h
  · exact hl.live
  · rcases hl.live with hlive | hlive
    · exact hlive ▸ .inr (h.mono hl.facts)
    · exact .inr ((h.mono hl.facts).trans hlive)

theorem Replaced.later (h : Replaced d.facts a d.live.accessToken) (hl : Later d d') :
    Replaced d'.facts a d'.live.accessToken := by
  rcases hl.live with hlive | hlive
  · exact hlive ▸ h.mono hl.facts
  · exact (h.mono hl.facts).trans hlive

/-! ### The source -/

theorem refreshLocked_spec (d : DB) (a : Endpoint) :
    Later d (d.refreshLocked a).1 ∧
    ((d.refreshLocked a).2 = none →
      Replaced (d.refreshLocked a).1.facts d.live.accessToken
      (d.refreshLocked a).1.live.accessToken) ∧
    ((d.refreshLocked a).2 = some .cannotRefresh → Cause (d.refreshLocked a).1.facts) := by
  unfold DB.refreshLocked
  by_cases hr : d.live.refreshToken = ""
  · have hc : Cause (d.note .nothingLeft).facts := .inr (.inr (.inr List.mem_cons_self))
    simp only [if_pos hr]
    exact ⟨(Later.note d _).mark hc, by simp, fun _ => hc⟩
  · simp only [if_neg hr]
    cases a with
    | token t =>
      have hrep : Replaced (.replaced d.live.accessToken t.accessToken :: d.facts)
        d.live.accessToken t.accessToken :=
        .single List.mem_cons_self
      exact ⟨⟨List.subset_cons_self _ _, .inr hrep, rfl, .inl⟩, fun _ => hrep, by simp⟩
    | retrieveError code =>
      by_cases hp : code ∈ permanentRefreshErrors
      · have hc : Cause (d.note (.refused code)).facts :=
          .inr (.inr (.inl ⟨code, hp, List.mem_cons_self⟩))
        simp only [if_pos hp]
        exact ⟨(Later.note d _).mark hc, by simp, fun _ => hc⟩
      · simp only [if_neg hp]
        exact ⟨.refl d, by simp, by simp⟩
    | failed => exact ⟨.refl d, by simp, by simp⟩

theorem token_spec (d : DB) (v : Choice) :
    Later d (d.token v).1 ∧ (∀ t, (d.token v).2 = .ok t → t = (d.token v).1.live.accessToken) ∧
    ((d.token v).2 = .error .cannotRefresh → Cause (d.token v).1.facts) := by
  obtain ⟨hl, -, hc⟩ := refreshLocked_spec d v.endpoint
  rw [DB.token]
  split_ifs
  · split
    next d₁ heq =>
      rw [heq] at hl
      refine ⟨hl, ?_, by simp⟩
      rintro t ⟨⟩
      rfl
    next d₁ e heq =>
      rw [heq] at hl hc
      refine ⟨hl, by simp, ?_⟩
      rintro ⟨⟩
      exact hc rfl
  · refine ⟨.refl d, ?_, by simp⟩
    rintro t ⟨⟩
    rfl

theorem refresh_spec (d : DB) (rejected : String) (a : Endpoint)
    (hr : Since d.facts rejected d.live.accessToken) : Later d (d.refresh rejected a).1 ∧
    ((d.refresh rejected a).2 = none →
      Replaced (d.refresh rejected a).1.facts rejected (d.refresh rejected a).1.live.accessToken) ∧
    ((d.refresh rejected a).2 = some .cannotRefresh → Cause (d.refresh rejected a).1.facts) := by
  rw [DB.refresh]
  split_ifs with hs hne
  · exact ⟨.refl d, fun _ => hr.resolve_left fun h => hne h.symm, by simp⟩
  · rw [← not_not.mp hne]
    exact refreshLocked_spec d a
  · exact ⟨.note d _, by simp, fun _ => .inr (.inr (.inr List.mem_cons_self))⟩

/-! ### Requests -/

/-- What a request knows: its token is one of the past; in `Authorize`, that the server answered 401
to it, and which token replaced it. -/
def Knows (facts : List Fact) (live : String) : Stage → Prop
  | .begun => True
  | .sending t => Since facts t live
  | .answered t status => Since facts t live ∧ .answered t status ∈ facts
  | .challenged t status =>
    Since facts t live ∧ .answered t status ∈ facts ∧ (status = 401 ∨ status = 403)
  | .refreshed t => .answered t 401 ∈ facts ∧ Replaced facts t live
  | .obtained t current => .answered t 401 ∈ facts ∧ Replaced facts t current

/-- The status has a cause, and an unproven token replaced one that was rejected. -/
structure Sound (d : DB) : Prop where
  cause : d.needsReauth = true → Cause d.facts
  unproven : d.unproven ≠ "" → ∃ old, .answered old 401 ∈ d.facts ∧ Replaced d.facts old d.unproven

theorem Sound.later (h : Sound d) (hl : Later d d') : Sound d' where
  cause hn := (hl.cause hn).elim (fun hn => (h.cause hn).mono hl.facts) id
  unproven hu := by
    rw [hl.unproven] at hu ⊢
    obtain ⟨old, hold, hrep⟩ := h.unproven hu
    exact ⟨old, hl.facts hold, hrep.mono hl.facts⟩

theorem Knows.later (h : Knows d.facts d.live.accessToken t) (hl : Later d d') :
    Knows d'.facts d'.live.accessToken t := by
  cases t with
  | begun => trivial
  | sending t => exact Since.later h hl
  | answered t status => exact ⟨h.1.later hl, hl.facts h.2⟩
  | challenged t status => exact ⟨h.1.later hl, hl.facts h.2.1, h.2.2⟩
  | refreshed t => exact ⟨hl.facts h.1, h.2.later hl⟩
  | obtained t current => exact ⟨hl.facts h.1, h.2.mono hl.facts⟩

/-- What a request leaves, and that the others know as much as before. -/
def Keeps (d : DB) : Outcome DB Stage Reply → Prop
  | .more d' t => Sound d' ∧ Knows d'.facts d'.live.accessToken t ∧
      ∀ y, Knows d.facts d.live.accessToken y → Knows d'.facts d'.live.accessToken y
  | .done d' _ =>
    Sound d' ∧ ∀ y, Knows d.facts d.live.accessToken y → Knows d'.facts d'.live.accessToken y

theorem Later.more (hl : Later d d') (hd : Sound d) (ht : Knows d'.facts d'.live.accessToken t) :
    Keeps d (.more d' t) :=
  ⟨hd.later hl, ht, fun _ hy => hy.later hl⟩

theorem Later.done (hl : Later d d') (hd : Sound d) (r : Reply) : Keeps d (.done d' r) :=
  ⟨hd.later hl, fun _ hy => hy.later hl⟩

theorem Later.giveUp (hl : Later d d') (hd : Sound d) (hc : e = .cannotRefresh → Cause d'.facts) :
    Keeps d (giveUp d' e) := by
  cases e with
  | cannotRefresh => exact (hl.mark (hc rfl)).done hd _
  | transient => exact hl.done hd _

/-- An unproven token that is rejected is a cause. -/
theorem Sound.roundTrip (hd : Sound d) {t : String} {status : ℕ}
    (hs : Since d.facts t d.live.accessToken)
    (ht : .answered t status ∈ d.facts) : Keeps d (d.roundTrip t status) := by
  rw [DB.roundTrip]
  split_ifs with hfresh hst hproven
  · obtain ⟨hne, rfl, hst⟩ := hfresh
    obtain ⟨old, hold, hrep⟩ := hd.unproven hne
    refine ((Later.refl d).mark (.inr (.inl ⟨old, _, hold, hrep, ?_⟩))).done hd _
    rcases hst with rfl | rfl
    · exact .inl ht
    · exact .inr ht
  · exact (Later.refl d).more hd ⟨hs, ht, hst⟩
  · exact ⟨⟨hd.cause, fun hne => absurd rfl hne⟩, fun _ hy => hy⟩
  · exact ⟨⟨hd.cause, hd.unproven⟩, fun _ hy => hy⟩

theorem next_keeps (hd : Sound d) (ht : Knows d.facts d.live.accessToken t)
    {o : Outcome DB Stage Reply} (h : next d v t = some o) : Keeps d o := by
  obtain ⟨hl, hok, hc⟩ := token_spec d v
  cases t with
  | begun =>
    rw [next] at h
    split at h <;> cases h
    next d₁ token heq =>
      rw [heq] at hl hok
      exact hl.more hd (.inl (hok token rfl))
    next d₁ e heq =>
      rw [heq] at hl
      exact hl.done hd _
  | sending t =>
    rw [next] at h
    split at h <;> cases h
    · exact (Later.refl d).done hd _
    · exact (Later.note d _).more hd ⟨Since.later ht (.note d _), List.mem_cons_self⟩
  | answered t status =>
    cases h
    exact hd.roundTrip ht.1 ht.2
  | challenged t status =>
    obtain ⟨hs, hans, hst⟩ := ht
    rw [next] at h
    split_ifs at h with h401
    · obtain ⟨hl, hok, hc⟩ := refresh_spec d t v.endpoint hs
      subst h401
      split at h <;> cases h
      next d₁ heq =>
        rw [heq] at hl hok
        exact hl.more hd ⟨hl.facts hans, hok rfl⟩
      next d₁ e heq =>
        rw [heq] at hl hc
        exact hl.giveUp hd fun he => hc (congrArg some he)
    · cases h
      obtain rfl := hst.resolve_left h401
      exact ((Later.refl d).mark (.inl ⟨t, hans⟩)).done hd _
  | refreshed t =>
    rw [next] at h
    split at h <;> cases h
    next d₁ current heq =>
      rw [heq] at hl hok
      have hrep := ht.2.later hl
      rw [← hok current rfl] at hrep
      exact hl.more hd ⟨hl.facts ht.1, hrep⟩
    next d₁ e heq =>
      rw [heq] at hl hc
      exact hl.giveUp hd fun he => hc (congrArg Except.error he)
  | obtained t current =>
    cases h
    exact ⟨⟨hd.cause, fun _ => ⟨t, ht.1, ht.2⟩⟩, trivial, fun _ hy => hy⟩

end

instance : Std.Symm fun _ _ : Unit × Stage => True := ⟨fun _ _ h => h⟩

variable {ls : List (Label Unit Choice Endpoint)} {s : State DB Unit Stage Reply}

theorem sound_runs (hd : Sound d) (h : Runs session.step (fun _ _ => true = true) (.init d) ls s) :
    Sound s.db := by
  have hgood : s.Good (fun d _ => Sound d)
    (fun d _ t => Knows d.facts d.live.accessToken t) fun _ _ => True := by
    refine System.inv ?_ ?_ ?_ ?_ h ⟨hd, by simp [State.init], .nil⟩
    · intro s c _ _
      exact ⟨trivial, fun _ _ => trivial⟩
    · intro s i c t v d' t' hs _ hx hnext
      have hkeeps : Keeps s.db (.more d' t') := next_keeps hs.data (hs.split hx).1 hnext
      exact ⟨hkeeps.1, hkeeps.2.1, fun y hy => ⟨hkeeps.2.2 y.2 ((hs.split hx).2.1 y hy).1, trivial⟩⟩
    · intro s i c t v d' r hs _ hx hnext
      have hkeeps : Keeps s.db (.done d' r) := next_keeps hs.data (hs.split hx).1 hnext
      exact ⟨hkeeps.1, fun y hy => hkeeps.2 y.2 ((hs.split hx).2.1 y hy).1⟩
    · intro s a d' hs _ henv
      cases henv
      have hl := (refreshLocked_spec s.db a).1
      exact ⟨hs.data.later hl, fun y hy => (hs.thread y hy).later hl⟩
  exact hgood.data

/-- **Re-consent only when needed**: in every run of a session, `needs_reauth` is written only after
the MCP server has answered 403, or 401 or 403 to a token that replaced one it had answered 401 to,
or the token endpoint has refused a refresh for good, or there was nothing to refresh with. Without
any of these it is never written, whatever else fails. -/
theorem reconsent_only_when_needed (refreshable : Bool) (live : Token)
    (h : Runs session.step (fun _ _ => true = true) (.init (.new refreshable live)) ls s) :
    (s.db.needsReauth = true → Cause s.db.facts) ∧
    ((∀ t, .answered t 401 ∉ s.db.facts ∧ .answered t 403 ∉ s.db.facts) →
      (∀ code ∈ permanentRefreshErrors, .refused code ∉ s.db.facts) → .nothingLeft ∉ s.db.facts →
      s.db.needsReauth = false) := by
  have hsound := sound_runs (d := .new refreshable live) ⟨by simp [DB.new], by simp [DB.new]⟩ h
  refine ⟨hsound.cause, fun hanswers hcodes hleft => ?_⟩
  by_contra hne
  rcases hsound.cause (by simpa using hne) with ⟨t, ht⟩ | ⟨old, t, hold, -, -⟩ |
    ⟨code, hcode, hc⟩ | hn
  · exact (hanswers t).2 ht
  · exact (hanswers old).1 hold
  · exact hcodes code hcode hc
  · exact hleft hn

/-- The first token is rejected and refreshed; the server fails once, then rejects the new token
too. -/
def rejectedTwice : List (Label Unit Choice Endpoint) :=
  [.call (), .go 0 ⟨false, .failed, none⟩, .go 0 ⟨false, .failed, some 401⟩,
    .go 0 ⟨false, .failed, none⟩, .go 0 ⟨false, .token ⟨"b", ""⟩, none⟩,
    .go 0 ⟨false, .failed, none⟩, .go 0 ⟨false, .failed, none⟩, .call (),
    .go 0 ⟨false, .failed, none⟩, .go 0 ⟨false, .failed, some 503⟩, .go 0 ⟨false, .failed, none⟩,
    .go 0 ⟨false, .failed, none⟩, .go 0 ⟨false, .failed, some 401⟩, .go 0 ⟨false, .failed, none⟩]

/-- Refreshing fails with an answer that is not permanent, and then the request gets no answer. -/
def unreachable : List (Label Unit Choice Endpoint) :=
  [.call (), .go 0 ⟨true, .retrieveError "temporarily_unavailable", none⟩, .call (),
    .go 0 ⟨false, .failed, none⟩, .go 0 ⟨false, .failed, none⟩]

/-- Two rejections need a new consent, and a server that does not answer needs none. -/
theorem reconsent_only_when_needed_rejectedTwice :
    (∃ s, Runs session.step (fun _ _ => true = true) (.init (.new true ⟨"a", "r"⟩)) rejectedTwice
      s ∧ s.db.needsReauth = true ∧ Cause s.db.facts) ∧
    ∃ s, Runs session.step (fun _ _ => true = true) (.init (.new true ⟨"a", "r"⟩)) unreachable s ∧
      s.log.map Prod.snd = [.failed, .failed] ∧ s.db.needsReauth = false := by
  obtain ⟨s, hs, hmarked⟩ : ∃ s, Runs session.step (fun _ _ => true = true)
    (.init (.new true ⟨"a", "r"⟩))
      rejectedTwice s ∧ s.db.needsReauth = true := exists_of_run (by decide +kernel)
  obtain ⟨u, hu, hlog, hfacts⟩ : ∃ s, Runs session.step (fun _ _ => true = true)
    (.init (.new true ⟨"a", "r"⟩))
      unreachable s ∧ s.log.map Prod.snd = [.failed, .failed] ∧ s.db.facts = [] :=
        exists_of_run (by decide +kernel)
  refine ⟨⟨s, hs, hmarked, (reconsent_only_when_needed true ⟨"a", "r"⟩ hs).1 hmarked⟩, u, hu,
    hlog, ?_⟩
  apply (reconsent_only_when_needed true ⟨"a", "r"⟩ hu).2 <;> simp [hfacts]

end Jarvis.Mcp.Reconsent
