import Jarvis.Gateway.Walk
import Jarvis.Steps

/-!
# The voice gateway: an item waits for its own response

The provider answers the requests of the gateway (`response.create`) in the order in which they were
sent, each with a response or with an error, and starts responses of its own when the user has
spoken; errors that have nothing to do with a request can come at any time. The gateway cannot tell
these apart: the events carry no reference to a request.
-/

namespace Jarvis.Gateway

open Steps

/-! ### What was put into the conversation, requested and reported -/

/-- The questions that were put into the conversation, in order. -/
def given : List Event → List Question
  | [] => []
  | .added question :: trace => given trace ++ [question]
  | _ :: trace => given trace

/-- The questions that were reported with a response, in order. -/
def spoken : List Event → List Question
  | [] => []
  | .started _ acks _ :: trace => spoken trace ++ acks
  | _ :: trace => spoken trace

/-- The requests that were sent, in order: for each the questions that were in the conversation. -/
def requests : List Event → List (List Question)
  | [] => []
  | .requested :: trace => requests trace ++ [given trace]
  | _ :: trace => requests trace

/-- The two buffers, and what has gone through them. -/
structure Said where
  given : List Question
  spoken : List Question
  requests : List (List Question)
  unspoken : List Question
  afterRequest : List Question
  requested : Bool

def Session.said (s : Session) : Said where
  given := Gateway.given s.trace
  spoken := Gateway.spoken s.trace
  requests := Gateway.requests s.trace
  unspoken := s.unspoken.acks
  afterRequest := s.afterRequest.acks
  requested := s.requested

variable {d d' : Said}

namespace Said

variable {d₁ : Said}

/-- The questions that were reported, or will be with the next response. -/
def ready (d : Said) : List Question := d.spoken ++ d.unspoken

/-- Questions are reported in the order in which they were put into the conversation. -/
structure InOrder (d : Said) : Prop where
  given : d.given = d.ready ++ d.afterRequest
  afterRequest : d.requested = false → d.afterRequest = []

def add (d : Said) (question : Question) : Said :=
  if d.requested then { d with
    given := d.given ++ [question]
    afterRequest := d.afterRequest ++ [question] }
  else { d with
    given := d.given ++ [question]
    unspoken := d.unspoken ++ [question] }

def request (d : Said) : Said := { d with
  requests := d.requests ++ [d.given]
  requested := true }

/-- A response is created: it reports what is unspoken. -/
def create (d : Said) : Said := { d with
  spoken := d.ready
  unspoken := d.afterRequest
  afterRequest := []
  requested := false }

/-- A request is taken to have failed. -/
def fail (d : Said) : Said := { d with
  unspoken := d.unspoken ++ d.afterRequest
  afterRequest := []
  requested := false }

/-- What happens to the buffers when no response is created and no request fails: while a request is
waited for, nothing gets ready and no other is sent; otherwise at most one is sent, and what is
ready then was given before. -/
structure Goes (d d' : Said) : Prop where
  inOrder : d.InOrder → d'.InOrder
  waiting : d.requested = true →
    d'.requested = true ∧ d'.ready = d.ready ∧ d'.requests = d.requests
  idle : d.InOrder → d.requested = false → d'.requested = false ∧ d'.requests = d.requests ∨
    d'.requested = true ∧ ∃ before, d'.requests = d.requests ++ [before] ∧ d'.ready <+: before

theorem Goes.refl : Goes d d := ⟨id, fun h => ⟨h, rfl, rfl⟩, fun _ h => .inl ⟨h, rfl⟩⟩

theorem Goes.of_eq (h : d' = d) : Goes d d' := h ▸ .refl

theorem Goes.trans (h : Goes d d₁) (h' : Goes d₁ d') : Goes d d' := by
  refine ⟨fun hd => h'.inOrder (h.inOrder hd), fun hr => ?_, fun hd hr => ?_⟩
  · obtain ⟨hr₁, hready₁, hreq₁⟩ := h.waiting hr
    obtain ⟨hr', hready', hreq'⟩ := h'.waiting hr₁
    exact ⟨hr', hready'.trans hready₁, hreq'.trans hreq₁⟩
  · rcases h.idle hd hr with ⟨hr₁, hreq₁⟩ | ⟨hr₁, before, hreq₁, hfront⟩
    · rw [← hreq₁]
      exact h'.idle (h.inOrder hd) hr₁
    · obtain ⟨hr', hready', hreq'⟩ := h'.waiting hr₁
      exact .inr ⟨hr', before, hreq'.trans hreq₁, hready' ▸ hfront⟩

/-- A question more. -/
theorem goes_add (question : Question) : Goes d (d.add question) := by
  unfold add
  split_ifs with hr
  · refine ⟨fun hd => ⟨?_, ?_⟩, fun _ => ⟨hr, rfl, rfl⟩, fun _ hf => absurd hr (by simp [hf])⟩
    · rw [hd.given, List.append_assoc]
      rfl
    · exact fun hf => absurd hr (Bool.eq_false_iff.mp hf)
  · refine ⟨fun hd => ⟨?_, hd.afterRequest⟩, fun h => absurd h hr, fun _ hf => .inl ⟨hf, rfl⟩⟩
    have hempty := hd.afterRequest (Bool.eq_false_iff.mpr hr)
    have hgiven := hd.given
    simp only [ready, hempty, List.append_nil] at hgiven ⊢
    rw [hgiven, List.append_assoc]

/-- A request, if none is unanswered. -/
theorem goes_request (hr : d.requested = false) : Goes d d.request := by
  refine ⟨fun hd => ⟨hd.given, nofun⟩, fun h => ?_, fun hd _ => .inr ⟨rfl, d.given, rfl, ?_⟩⟩
  · rw [hr] at h
    cases h
  · exact ⟨d.afterRequest, hd.given.symm⟩

/-- A response hands its questions over in order. -/
theorem InOrder.create (h : d.InOrder) : d.create.InOrder :=
  ⟨h.given.trans (List.append_nil _).symm, fun _ => rfl⟩

/-- A failed request leaves them in order. -/
theorem InOrder.fail (h : d.InOrder) : d.fail.InOrder := by
  refine ⟨h.given.trans ?_, fun _ => rfl⟩
  simp only [ready, Said.fail, List.append_nil, List.append_assoc]

end Said

/-! ### The loop -/

section

variable (s : Session)

/-- Writing tells nothing. -/
theorem said_write : s.write.2.said = s.said := by
  unfold Session.write
  split <;> rfl

theorem said_added (question : Option Question) :
    (s.added question).said = question.elim s.said s.said.add := by
  cases question with
  | none =>
    unfold Session.added
    dsimp only
    split_ifs <;> simp only [Session.said, Delivered.add, Option.toList_none, List.append_nil,
      List.map_nil, List.nil_append, Option.elim_none]
  | some q =>
    unfold Session.added Said.add
    dsimp only [Option.elim_some]
    split_ifs with hr hr' hr'
    · rfl
    · exact absurd hr hr'
    · exact absurd hr' hr
    · rfl

/-- A request is sent if none is waited for. -/
theorem said_respond : s.respond.said = s.said ∨
    s.requested = false ∧ s.respond.said = s.said.request := by
  unfold Session.respond
  split_ifs with hwant
  · exact .inl rfl
  · have hwrite := said_write s
    rcases heq : s.write with ⟨ok, s'⟩
    rw [heq] at hwrite
    cases ok with
    | true =>
      refine .inr ⟨?_, ?_⟩
      · rw [← Bool.not_eq_true]
        exact fun hr => hwant (.inr (.inl hr))
      · rw [← hwrite]
        rfl
    | false => exact .inl hwrite

open Said (Goes)

/-- What happens after something that has to do with neither buffer. -/
theorem Said.Goes.after {s₀ : Session} {d : Said} (h : Goes s₀.said d) (heq : s₀.said = s.said) :
    Goes s.said d := heq ▸ h

/-- `respond` sends at most one request. -/
theorem goes_respond : Goes s.said s.respond.said := by
  rcases said_respond s with heq | ⟨hr, heq⟩
  · exact .of_eq heq
  · rw [heq]
    exact Said.goes_request hr

theorem goes_added (question : Option Question) : Goes s.said (s.added question).said := by
  rw [said_added]
  cases question with
  | none => exact .refl
  | some q => exact Said.goes_add q

/-- The parts of delivering results. -/
theorem goes_walk : Walk fun s s' => Goes s.said s'.said where
  refl _ := .refl
  trans _ _ _ h h' := h.trans h'
  books _ _ _ _ _ _ := .of_eq rfl
  happened s e he := by
    cases e with
    | announced | refused | taken | output => exact .of_eq rfl
    | _ => cases he
  added := goes_added
  respond := goes_respond

/-- A call of a tool. -/
theorem goes_functionCall (call : FunctionCall) : Goes s.said (s.jarvisFunctionCall call).said :=
  goes_walk.jarvisFunctionCall (fun _ _ _ _ => .of_eq rfl) s call

/-- A response that is done. -/
theorem goes_responseDone (responseID : String) (calls : List FunctionCall) :
    Goes s.said (s.jarvisResponseDone responseID calls).said := by
  unfold Session.jarvisResponseDone
  dsimp only
  have hcalls := goes_walk.functionCalls goes_functionCall calls s
  exact hcalls.trans ((goes_walk.deliver _).after _ rfl)

theorem said_record (full : Bool) (turn : Turn) : (s.record full turn).said = s.said := by
  unfold Session.record
  split_ifs <;> rfl

/-- Transcripts tell nothing. -/
theorem said_transcript (final user : Bool) (itemID text : String) (full : Bool) :
    (s.jarvisTranscript final user itemID text full).said = s.said := by
  unfold Session.jarvisTranscript
  split_ifs
  · rfl
  · exact said_record _ _ _
  · exact said_record _ _ _

/-- A response that is created. -/
theorem said_responseCreated (responseID : String) :
    (s.jarvisResponseCreated responseID).said = s.said.create := by
  unfold Session.jarvisResponseCreated
  dsimp only
  split_ifs with hacks
  · simp only [Session.said, Said.create, Said.ready, given, spoken, requests,
      hacks, List.append_nil]
  · rfl

/-- An error is taken for the answer to the request that is waited for. -/
theorem said_providerError : if s.requested then Goes s.said.fail s.jarvisProviderError.said
    else s.jarvisProviderError.said = s.said := by
  unfold Session.jarvisProviderError
  set s₀ := s.happened .failed
  dsimp only
  have hsame : s₀.requested = s.requested := rfl
  split_ifs with hr hnot hfail hnot hfail
  · exact absurd hr (by simpa [hsame] using hnot)
  · exact .refl
  · exact goes_respond { s₀ with
      requested := false
      unspoken := s₀.unspoken.add s₀.afterRequest
      afterRequest := {}
      createFailures := s₀.createFailures + 1 }
  · rfl
  all_goals exact absurd hr (by simpa [hsame] using hnot)

/-- A result that is delivered. -/
theorem goes_result (c : ℕ) (call : CallRoutine) (r : ToolResult) :
    Goes s.said ((s.setCall c call .gone).jarvisResult r).said :=
  (goes_walk.jarvisResult _ r).after s rfl

end

open Said (Goes)

variable {s s' : Session}

variable {l : Label} {t t' : Talk}

/-- Goroutines have nothing to do with the buffers. -/
theorem said_routine (hl : ∀ i oracle, l ≠ .input i oracle) (hstep : s.step l = some s') :
    s'.said = s.said := by
  cases l with
  | input i oracle => exact absurd rfl (hl i oracle)
  | ack k outcome =>
    simp only [Session.step, Session.sendAck] at hstep
    split at hstep
    · split_ifs at hstep <;> (cases hstep; rfl)
    · cases hstep
  | close k =>
    simp only [Session.step, Session.closeBarrier] at hstep
    split at hstep
    · split_ifs at hstep
      cases hstep
      rfl
    · cases hstep
  | issue c =>
    simp only [Session.step, Session.issue] at hstep
    split at hstep
    · split_ifs at hstep
      cases hstep
      rfl
    · cases hstep
  | reply c r =>
    simp only [Session.step, Session.reply] at hstep
    split at hstep
    · split_ifs at hstep <;> (cases hstep; rfl)
    · cases hstep
  | leave c =>
    simp only [Session.step, Session.leave] at hstep
    split at hstep
    · split_ifs at hstep
      cases hstep
      rfl
    · cases hstep
  | finish =>
    cases hstep
    rfl

/-- What a step of the session does to the buffers. -/
def Said.Takes (d d' : Said) : Label → Prop
  | .input (.responseCreated _) _ => d' = d.create
  | .input .providerError _ => if d.requested then Goes d.fail d' else d' = d
  | _ => Goes d d'

/-- What a step of the session does to the questions. -/
theorem takes_step (hstep : s.step l = some s') : Said.Takes s.said s'.said l := by
  cases l with
  | input i oracle =>
    cases i with
    | speechStarted =>
      cases hstep
      exact Goes.refl
    | speechStopped itemID full =>
      cases hstep
      exact .of_eq (said_record _ _ _)
    | transcript final user itemID text full =>
      cases hstep
      exact .of_eq (said_transcript _ _ _ _ _ _)
    | responseCreated responseID =>
      cases hstep
      exact said_responseCreated { s with oracle := oracle } responseID
    | responseDone responseID calls =>
      cases hstep
      exact goes_responseDone { s with oracle := oracle } responseID calls
    | functionCall call =>
      cases hstep
      exact goes_functionCall { s with oracle := oracle } call
    | providerError =>
      cases hstep
      exact said_providerError { s with oracle := oracle }
    | notice eventID =>
      cases hstep
      exact goes_walk.jarvisNotice { s with oracle := oracle } eventID
    | result c =>
      simp only [Session.step, Session.handle] at hstep
      split at hstep
      · split at hstep
        · cases hstep
          exact goes_result { s with oracle := oracle } c _ _
        · cases hstep
      · cases hstep
  | _ => exact .of_eq (said_routine (by rintro _ _ ⟨⟩) hstep)

/-- Every step leaves the questions in order. -/
theorem Said.Takes.inOrder (h : d.Takes d' l) (hd : d.InOrder) :
    d'.InOrder := by
  unfold Said.Takes at h
  split at h
  · exact h ▸ hd.create
  · split_ifs at h
    · exact h.inOrder hd.fail
    · exact h ▸ hd
  · exact h.inOrder hd

/-! ### The provider -/

/-- A session and its provider: how many requests the provider has answered, and how many responses
it has started itself. -/
structure Talk where
  session : Session := {}
  answered : ℕ := 0
  own : ℕ := 0

namespace Talk

/-- The requests that are unanswered, the oldest first. -/
def unanswered (t : Talk) : List (List Question) := (requests t.session.trace).drop t.answered

/-- A step of the session. A response or an error of the provider answers the oldest request that is
unanswered (`answers`), or has nothing to do with one; a response is then one for a user turn. -/
def step (t : Talk) : Label × Bool → Option Talk
  | (l, answers) =>
    (t.session.step l).bind fun s =>
      match l with
      | .input (.responseCreated _) _ =>
        if answers then
          if t.unanswered = [] then none else
            some { t with session := s, answered := t.answered + 1 }
        else if t.own < t.session.userTurn then some { t with session := s, own := t.own + 1 }
        else none
      | .input .providerError _ =>
        if answers then
          if t.unanswered = [] then none else
            some { t with session := s, answered := t.answered + 1 }
        else some { t with session := s }
      | _ => some { t with session := s }

/-- The condition on the provider: while a request is unanswered, it starts no response of its own,
and reports no error that has nothing to do with the request. -/
def careful (t : Talk) : Label × Bool → Bool
  | (.input (.responseCreated _) _, answers) => answers || t.unanswered = []
  | (.input .providerError _, answers) => answers || t.unanswered = []
  | _ => true

/-- A step of the talk is one of its session. -/
theorem step_session {l : Label × Bool} (hstep : t.step l = some t') :
    t.session.step l.1 = some t'.session := by
  obtain ⟨s, hs, hstep⟩ := Option.bind_eq_some_iff.mp hstep
  split at hstep
  · split_ifs at hstep <;> (cases hstep; exact hs)
  · split_ifs at hstep <;> (cases hstep; exact hs)
  · cases hstep
    exact hs

/-- An event that may be an answer is one, or no request is unanswered. -/
theorem step_answered (hi : i = .providerError ∨ ∃ responseID, i = .responseCreated responseID)
    (hc : t.careful (.input i oracle, answers) = true)
    (hstep : t.step (.input i oracle, answers) = some t') :
    answers = false ∧ t.unanswered = [] ∧ t'.answered = t.answered ∨
      answers = true ∧ t.unanswered ≠ [] ∧ t'.answered = t.answered + 1 := by
  obtain ⟨s, -, hstep⟩ := Option.bind_eq_some_iff.mp hstep
  obtain rfl | ⟨responseID, rfl⟩ := hi
  all_goals
    cases answers with
    | true =>
      dsimp only at hstep
      rw [if_pos rfl] at hstep
      split_ifs at hstep with hnone
      cases hstep
      exact .inr ⟨rfl, hnone, rfl⟩
    | false =>
      refine .inl ⟨rfl, by simpa [careful] using hc, ?_⟩
      dsimp only at hstep
      rw [if_neg (by simp)] at hstep
      first | (cases hstep; rfl) | (split_ifs at hstep; cases hstep; rfl)

end Talk

/-- What the gateway believes of its requests is so: it waits for one if and only if one is
unanswered, and everything that is ready was in the conversation when that one was sent. -/
structure Said.Clear (d : Said) (answered : ℕ) : Prop where
  inOrder : d.InOrder
  idle : d.requested = false → d.requests.length = answered
  waiting : d.requested = true →
    ∃ old before, d.requests = old ++ [before] ∧ old.length = answered ∧ d.ready <+: before

namespace Said

variable {n : ℕ}

/-- What goes on leaves the talk clear. -/
theorem Goes.clear (h : Goes d d') (hd : d.Clear n) : d'.Clear n := by
  cases hr : d.requested with
  | true =>
    obtain ⟨hr', hready, hreq⟩ := h.waiting hr
    refine ⟨h.inOrder hd.inOrder, fun hf => absurd hr' (by simp [hf]), fun _ => ?_⟩
    rw [hreq, hready]
    exact hd.waiting hr
  | false =>
    have hlen := hd.idle hr
    rcases h.idle hd.inOrder hr with ⟨hr', hreq⟩ | ⟨hr', before, hreq, hfront⟩
    · exact ⟨h.inOrder hd.inOrder, fun _ => hreq ▸ hlen, fun ht => absurd ht (by simp [hr'])⟩
    · exact ⟨h.inOrder hd.inOrder, fun hf => absurd hr' (by simp [hf]),
        fun _ => ⟨d.requests, before, hreq, hlen, hfront⟩⟩

/-- Whether a request is unanswered can be seen at the flag. -/
theorem Clear.unanswered (h : d.Clear n) :
    d.requested = false ∧ d.requests.drop n = [] ∧ d.requests.length = n ∨
      d.requested = true ∧ d.requests.drop n ≠ [] ∧ d.requests.length = n + 1 := by
  cases hr : d.requested with
  | false =>
    have hlen := h.idle hr
    exact .inl ⟨rfl, List.drop_eq_nil_of_le hlen.le, hlen⟩
  | true =>
    obtain ⟨old, before, heq, hlen, -⟩ := h.waiting hr
    have hlen' : d.requests.length = n + 1 := by rw [heq, List.length_append, hlen]; rfl
    refine .inr ⟨rfl, fun hnil => ?_, hlen'⟩
    have := List.drop_eq_nil_iff.mp hnil
    omega

end Said

/-- The provider's answers are taken for what they are. -/
theorem Talk.clear_step (h : t.session.said.Clear t.answered) {l : Label × Bool}
    (hc : t.careful l = true) (hstep : t.step l = some t') :
    t'.session.said.Clear t'.answered := by
  have htakes := takes_step (step_session hstep)
  -- Afterwards nothing is unanswered, if the event is one that may be an answer.
  have hlen {i : Input} {oracle : Oracle} (hl : l.1 = .input i oracle)
      (hi : i = .providerError ∨ ∃ responseID, i = .responseCreated responseID) :
      t.session.said.requests.length = t'.answered := by
    obtain ⟨l, answers⟩ := l
    subst hl
    rcases h.unanswered with ⟨-, hnone, hlen⟩ | ⟨-, hsome, hlen⟩ <;>
      rcases step_answered hi hc hstep with ⟨-, hnone', heq⟩ | ⟨-, hsome', heq⟩
    · rw [hlen, heq]
    · exact absurd hnone hsome'
    · exact absurd hnone' hsome
    · rw [hlen, heq]
  obtain ⟨l, answers⟩ := l
  obtain ⟨s, -, hnext⟩ := Option.bind_eq_some_iff.mp hstep
  have hother (heq : t'.answered = t.answered) (hgoes : Said.Goes t.session.said t'.session.said) :
      t'.session.said.Clear t'.answered := heq ▸ hgoes.clear h
  cases l with
  | input i oracle =>
    cases i with
    | responseCreated responseID =>
      have heq : t'.session.said = t.session.said.create := htakes
      have hlen := hlen rfl (.inr ⟨responseID, rfl⟩)
      rw [heq]
      exact ⟨h.inOrder.create, fun _ => hlen, nofun⟩
    | providerError =>
      have hlen := hlen rfl (.inl rfl)
      dsimp only [Said.Takes] at htakes
      split_ifs at htakes
      · exact htakes.clear ⟨h.inOrder.fail, fun _ => hlen, nofun⟩
      · rename_i hr
        rw [htakes]
        exact ⟨h.inOrder, fun _ => hlen, fun ht => absurd ht hr⟩
    | _ => exact hother (by cases hnext; rfl) htakes
  | _ => exact hother (by cases hnext; rfl) htakes

/-- In every run in which the provider starts no response of its own and reports no unrelated error
while a request is unanswered: with a response, only questions are reported that were in the
conversation before it was created, and if it answers a request, only questions that were there when
the request was sent. -/
theorem waits_for_response {ls : List (Label × Bool)} {responseID : String} {oracle : Oracle}
    {answers : Bool} (h : Runs Talk.step (fun t l => t.careful l = true) {} ls t)
    (hstep : t.step (.input (.responseCreated responseID) oracle, answers) = some t') :
    spoken t'.session.trace <+: given t.session.trace ∧
      (answers = true → ∃ before, (requests t.session.trace)[t.answered]? = some before ∧
        spoken t'.session.trace <+: before) := by
  have hclear := h.inv (P := fun t => t.session.said.Clear t.answered)
    (fun _ _ _ hk hc hl => Talk.clear_step hk hc hl) ⟨⟨rfl, fun _ => rfl⟩, fun _ => rfl, nofun⟩
  have hspoken : spoken t'.session.trace = t.session.said.ready :=
    congrArg Said.spoken (takes_step (Talk.step_session hstep))
  rw [hspoken]
  refine ⟨⟨_, hclear.inOrder.given.symm⟩, fun ha => ?_⟩
  subst ha
  obtain ⟨-, hsome, -⟩ := (Talk.step_answered (.inr ⟨_, rfl⟩) rfl hstep).resolve_left (by simp)
  obtain ⟨hr, -, -⟩ := hclear.unanswered.resolve_left fun hnone => hsome hnone.2.1
  obtain ⟨old, before, heq, hlen, hfront⟩ := hclear.waiting hr
  refine ⟨before, ?_, hfront⟩
  rw [show requests t.session.trace = old ++ [before] from heq, ← hlen]
  exact List.getElem?_concat_length

/-- A second event comes while the response for the first is requested, and waits for its own. -/
def requestedTwice : List (Label × Bool) :=
  [(.input (.notice 1) {}, false), (.input (.notice 2) {}, false),
    (.input (.responseCreated "r1") {}, true), (.input (.responseDone "r1" []) {}, false)]

/-- The second response reports the second event. -/
theorem waits_for_response_twice : ∃ t t', Runs Talk.step (fun t l => t.careful l = true) {}
      requestedTwice t ∧ t.step (.input (.responseCreated "r2") {}, true) = some t' ∧
    spoken t'.session.trace = [.event 1, .event 2] ∧
    ∃ before, (requests t.session.trace)[t.answered]? = some before ∧
      spoken t'.session.trace <+: before := by
  obtain ⟨t, h, hs⟩ : ∃ t, Runs Talk.step (fun t l => t.careful l = true) {} requestedTwice t ∧
      (t.step (.input (.responseCreated "r2") {}, true)).any (fun t' =>
        spoken t'.session.trace = [.event 1, .event 2]) = true := exists_of_run (by decide +kernel)
  obtain ⟨t', hstep, hspoken⟩ := (Option.any_eq_true ..).mp hs
  exact ⟨t, t', h, hstep, of_decide_eq_true hspoken, (waits_for_response h hstep).2 rfl⟩

/-- An error that has nothing to do with the request. -/
def unrelatedError : List (Label × Bool) :=
  [(.input (.notice 1) {}, false), (.input (.notice 2) {}, false),
    (.input .providerError {}, false), (.input (.responseCreated "r1") {}, true)]

/-- The user speaks while a response is requested. -/
def spokenMeanwhile : List (Label × Bool) :=
  [(.input (.notice 1) {}, false), (.input (.notice 2) {}, false),
    (.input .speechStarted {}, false), (.input (.speechStopped "u1" false) {}, false),
    (.input (.responseCreated "v1") {}, false), (.input (.responseCreated "r1") {}, true)]

/-- The response for the first request reports both questions, and the second was put into the
conversation after the request. -/
theorem spoken_too_early :
    (∃ t, Runs Talk.step (fun _ _ => true = true) {} unrelatedError t ∧ t.answered = 1 ∧
      (requests t.session.trace)[0]? = some [.event 1] ∧
      t.session.trace.head? = some (.started 0 [.event 1, .event 2] 0)) ∧
    ∃ t, Runs Talk.step (fun _ _ => true = true) {} spokenMeanwhile t ∧ t.answered = 1 ∧
      (requests t.session.trace)[0]? = some [.event 1] ∧
      t.session.trace.head? = some (.started 1 [.event 2] 1) :=
  ⟨exists_of_run (by decide +kernel), exists_of_run (by decide +kernel)⟩

end Jarvis.Gateway
