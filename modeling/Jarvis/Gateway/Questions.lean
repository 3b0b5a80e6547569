import Jarvis.Gateway.Responses
import Jarvis.Trace
import Mathlib.Data.Nat.PSub

/-!
# The voice gateway: questions are neither lost nor reported twice

For every sequence of inputs and every order of the goroutines' steps, without a condition on what
the provider sends. The questions that were put into the conversation are those that were handed to
a goroutine that reports them, followed by those in the two buffers (`Said.InOrder`). The goroutines
form a chain (`Chain`), so that they report in the order in which they were started. What the loop
knows of the conversation is what the events say (`Linked`).
-/

namespace Jarvis.Gateway

open Steps Trace

/-! ### What the events say -/

/-- The response was created and is not done. -/
def inProgress (responseID : String) : List Event → Bool
  | [] => false
  | .created r :: trace => r = responseID || inProgress responseID trace
  | .done r :: trace => r ≠ responseID && inProgress responseID trace
  | _ :: trace => inProgress responseID trace

/-- The goroutine that an event is about, if it reports questions. -/
def Event.routine : Event → Option ℕ
  | .started k _ _ => some k
  | .settled k _ => some k
  | _ => none

/-- The question of a goroutine whose report has completed or was given up. -/
def Event.settledBy (k : ℕ) : Event → Option Question
  | .settled j question => if j = k then some question else none
  | _ => none

/-- The questions of a goroutine that are reported or given up, in order. -/
def settled (k : ℕ) (trace : List Event) : List Question :=
  (trace.filterMap (Event.settledBy k)).reverse

variable {e : Event} {trace : List Event} {k : ℕ}

section

variable {question : Question}

theorem settled_cons (h : e.settledBy k = none) : settled k (e :: trace) = settled k trace := by
  unfold settled
  rw [List.filterMap_cons_none h]

theorem settled_cons_settled : settled k (.settled k question :: trace) =
    settled k trace ++ [question] := by
  unfold settled
  rw [List.filterMap_cons_some (b := question) (by simp [Event.settledBy]), List.reverse_cons]

end

/-- The user has started to speak and not stopped. -/
def userSpeaks : List Event → Bool
  | [] => false
  | .speechStarted :: _ => true
  | .speechStopped :: _ => false
  | _ :: trace => userSpeaks trace

/-- A `response.create` was sent, and since then neither a response was created nor an error
reported. -/
def outstanding : List Event → Bool
  | [] => false
  | .requested :: _ => true
  | .created _ :: _ => false
  | .failed :: _ => false
  | _ :: trace => outstanding trace

/-- A request and a report come in their turn. A request: none is outstanding, the user does not
speak and no response is running. The start of a report: it is the report of the response that was
just created, and comes after those that were started before. A question: all questions of earlier
reports are settled, and those that come before it in its own. -/
def Event.InTurn (earlier : List Event) : Event → Prop
  | .requested => outstanding earlier = false ∧ userSpeaks earlier = false ∧
      ∀ r, inProgress r earlier = false
  | .started k _ _ => (∃ r rest, earlier = .created r :: rest) ∧
      ∀ j acks turn, .started j acks turn ∈ earlier → j < k
  | .reported k question _ =>
    (∀ j < k, ∀ acks turn, .started j acks turn ∈ earlier → Gateway.settled j earlier = acks) ∧
    ∃ acks turn, .started k acks turn ∈ earlier ∧ Gateway.settled k earlier ++ [question] <+: acks
  | _ => True

/-! ### The goroutines that report -/

variable {ls : List Label}

/-- An event that is about no goroutine. -/
theorem forall_routine_cons (he : e.routine = none)
    (h : ∀ e ∈ trace, ∀ k, e.routine = some k → k < n) :
    ∀ e' ∈ e :: trace, ∀ k, e'.routine = some k → k < n := by
  intro e' hmem k hk
  rcases List.mem_cons.mp hmem with rfl | hmem
  · rw [he] at hk
    cases hk
  · exact h e' hmem k hk

/-- A barrier that is closed. -/
theorem isClosed_some {s : Session} : s.isClosed (some k) = true ↔
    ∃ r : AckRoutine, s.acks[k]? = some r ∧ r.closed = true := by
  simp only [Session.isClosed]
  cases s.acks[k]? <;> simp

/-- The goroutines that are closed come before the others, also after one of them has gone on. -/
theorem closed_set {acks : List AckRoutine}
    (h : ∀ (k : ℕ) (r : AckRoutine), acks[k]? = some r → r.closed = true → ∀ j < k,
      ∃ r₁ : AckRoutine, acks[j]? = some r₁ ∧ r₁.closed = true)
    (hk : acks[k]? = some r) (hopen : r.closed = false)
    (hclosed : r'.closed = true → ∀ j < k, ∃ r₁ : AckRoutine, acks[j]? = some r₁ ∧ r₁.closed = true)
    (i : ℕ) (r₁ : AckRoutine) (hi : (acks.set k r')[i]? = some r₁) (hr₁ : r₁.closed = true) (j : ℕ)
    (hj : j < i) : ∃ r₂ : AckRoutine, (acks.set k r')[j]? = some r₂ ∧ r₂.closed = true := by
  by_cases hik : k = i
  · subst hik
    rw [List.getElem?_set_self (List.getElem?_eq_some_iff.mp hk).1] at hi
    cases hi
    obtain ⟨r₂, hr₂, hc⟩ := hclosed hr₁ j hj
    exact ⟨r₂, (List.getElem?_set_ne (Nat.ne_of_gt hj)).trans hr₂, hc⟩
  · rw [List.getElem?_set_ne hik] at hi
    obtain ⟨r₂, hr₂, hc⟩ := h i r₁ hi hr₁ j hj
    have hjk : k ≠ j := by
      rintro rfl
      rw [hk] at hr₂
      cases hr₂
      rw [hopen] at hc
      cases hc
    exact ⟨r₂, (List.getElem?_set_ne hjk).trans hr₂, hc⟩

/-- What holds of one of them. -/
structure AckRoutine.Linked (trace : List Event) (k : ℕ) (r : AckRoutine) : Prop where
  previous : r.previous = k.ppred
  started : .started k (settled k trace ++ r.pending) r.turn ∈ trace
  only : ∀ acks turn, .started k acks turn ∈ trace → acks = settled k trace ++ r.pending
  closed : r.closed = true → r.pending = []

/-- Each waits for the one before it. -/
structure Chain (barrier : Option ℕ) (acks : List AckRoutine) (trace : List Event) : Prop where
  barrier : barrier = acks.length.ppred
  started : ∀ e ∈ trace, ∀ k, e.routine = some k → k < acks.length
  routines : ∀ (k : ℕ) (r : AckRoutine), acks[k]? = some r → r.Linked trace k
  closed : ∀ (k : ℕ) (r : AckRoutine), acks[k]? = some r → r.closed = true →
    ∀ j < k, ∃ r' : AckRoutine, acks[j]? = some r' ∧ r'.closed = true

section

variable {barrier : Option ℕ} {acks : List AckRoutine}

variable {r : AckRoutine} {turn attempt : ℕ} {previous : Option ℕ} {q : Question}
  {rest : List Question}

theorem settledBy_of_routine (he : e.routine = none) : e.settledBy k = none := by
  cases e with
  | settled => cases he
  | _ => rfl

/-- What a routine knows stays so while it does nothing. -/
theorem AckRoutine.Linked.cons (h : r.Linked trace k)
    (hstarted : ∀ acks turn, e ≠ .started k acks turn) (hsettled : e.settledBy k = none) :
    r.Linked (e :: trace) k := by
  refine ⟨h.previous, ?_, fun acks turn hmem => ?_, h.closed⟩
  · rw [settled_cons hsettled]
    exact List.mem_cons_of_mem _ h.started
  · rw [settled_cons hsettled]
    exact h.only acks turn (List.mem_of_ne_of_mem (hstarted acks turn).symm hmem)

section

variable (h : Chain barrier acks trace)
include h

/-- An event that is about none of them. -/
theorem Chain.cons (he : e.routine = none) : Chain barrier acks (e :: trace) where
  barrier := h.barrier
  started := forall_routine_cons he h.started
  routines k r hk := (h.routines k r hk).cons (fun _ _ heq => by rw [heq] at he; cases he)
    (settledBy_of_routine he)
  closed := h.closed

/-- The next one is started. -/
theorem Chain.start (questions : List Question) (turn : ℕ) :
    Chain (some acks.length) (acks ++ [⟨barrier, turn, questions, 0, false⟩])
      (.started acks.length questions turn :: trace) := by
  have hget : ∀ {k r}, (acks ++ [⟨barrier, turn, questions, 0, false⟩])[k]? = some r →
      acks[k]? = some r ∨ k = acks.length ∧ r = ⟨barrier, turn, questions, 0, false⟩ := by
    intro k r hr
    rw [List.getElem?_append] at hr
    split_ifs at hr with hk
    · exact .inl hr
    · obtain ⟨hk', heq⟩ := List.getElem?_eq_some_iff.mp hr
      rw [List.length_singleton] at hk'
      refine .inr ⟨by omega, ?_⟩
      rw [← heq, List.getElem_singleton]
  have hnone : settled acks.length (.started acks.length questions turn :: trace) = [] := by
    rw [settled_cons rfl]
    unfold settled
    rw [List.reverse_eq_nil_iff, List.filterMap_eq_nil_iff]
    intro e he
    cases e with
    | settled j q => exact if_neg (Nat.ne_of_lt (h.started _ he j rfl))
    | _ => rfl
  refine ⟨?_, fun e he k hk => ?_, fun k r hk => ?_, fun k r hk hclosed j hj => ?_⟩
  · simp
  · rw [List.length_append, List.length_singleton]
    rcases List.mem_cons.mp he with rfl | he
    · cases hk
      exact Nat.lt_succ_self _
    · exact Nat.lt_succ_of_lt (h.started e he k hk)
  · rcases hget hk with hr | ⟨rfl, rfl⟩
    · have hlt : k < acks.length := (List.getElem?_eq_some_iff.mp hr).1
      exact (h.routines k r hr).cons (by rintro _ _ ⟨⟩; exact Nat.lt_irrefl _ hlt) rfl
    · refine ⟨h.barrier, ?_, fun acks' turn' hmem => ?_, (fun hclosed => nomatch hclosed)⟩
      · rw [hnone]
        exact List.mem_cons_self
      · rw [hnone]
        rcases List.mem_cons.mp hmem with heq | hmem
        · cases heq
          rfl
        · exact absurd (h.started _ hmem _ rfl) (Nat.lt_irrefl _)
  · rcases hget hk with hr | ⟨rfl, rfl⟩
    · obtain ⟨r', hr', hclosed'⟩ := h.closed k r hr hclosed j hj
      exact ⟨r', (List.getElem?_append_left
        (List.getElem?_eq_some_iff.mp hr').1).trans hr', hclosed'⟩
    · cases hclosed

/-- One of them goes on with the same questions. -/
theorem Chain.set (hk : acks[k]? = some r) (hopen : r.closed = false) (hr' : r'.Linked trace k)
    (hclosed : r'.closed = true →
      ∀ j < k, ∃ r₁ : AckRoutine, acks[j]? = some r₁ ∧ r₁.closed = true) :
    Chain barrier (acks.set k r') trace := by
  refine ⟨?_, fun e he j hj => ?_, fun j r₁ hj => ?_, closed_set h.closed hk hopen hclosed⟩
  · rw [List.length_set]
    exact h.barrier
  · rw [List.length_set]
    exact h.started e he j hj
  · by_cases hjk : k = j
    · subst hjk
      rw [List.getElem?_set_self (List.getElem?_eq_some_iff.mp hk).1] at hj
      cases hj
      exact hr'
    · rw [List.getElem?_set_ne hjk] at hj
      exact h.routines j r₁ hj

/-- A question is settled. -/
theorem Chain.settle (hk : acks[k]? = some ⟨previous, turn, q :: rest, attempt, false⟩) :
    Chain barrier (acks.set k ⟨previous, turn, rest, 0, false⟩) (.settled k q :: trace) := by
  have hlt : k < acks.length := (List.getElem?_eq_some_iff.mp hk).1
  have hsettled : settled k (.settled k q :: trace) ++ rest = settled k trace ++ q :: rest := by
    rw [settled_cons_settled, List.append_assoc, List.singleton_append]
  refine ⟨?_, fun e he j hj => ?_, fun j r hj => ?_,
    closed_set h.closed hk rfl (fun hc => nomatch hc)⟩
  · rw [List.length_set]
    exact h.barrier
  · rw [List.length_set]
    rcases List.mem_cons.mp he with rfl | he
    · cases hj
      exact hlt
    · exact h.started e he j hj
  · by_cases hjk : k = j
    · subst hjk
      rw [List.getElem?_set_self hlt] at hj
      cases hj
      have hr := h.routines k _ hk
      refine ⟨hr.previous, ?_, fun acks turn' hmem => ?_, (fun hc => nomatch hc)⟩
      · rw [hsettled]
        exact List.mem_cons_of_mem _ hr.started
      · rw [hsettled]
        exact hr.only acks turn' (List.mem_of_ne_of_mem (by rintro ⟨⟩) hmem)
    · rw [List.getElem?_set_ne hjk] at hj
      exact (h.routines j r hj).cons (by rintro _ _ ⟨⟩) (if_neg hjk)

/-- All of them that come before one whose barrier is closed are closed. -/
theorem Chain.closed_before (hk : acks[k]? = some r)
    (hprevious : ∀ m, r.previous = some m → ∃ r' : AckRoutine, acks[m]? = some r' ∧
      r'.closed = true) :
    ∀ j < k, ∃ r' : AckRoutine, acks[j]? = some r' ∧ r'.closed = true := by
  intro j hj
  obtain ⟨m, rfl⟩ : ∃ m, k = m + 1 := ⟨k - 1, by omega⟩
  obtain ⟨r₁, hr₁, hc⟩ := hprevious m (h.routines _ r hk).previous
  rcases Nat.lt_succ_iff_lt_or_eq.mp hj with hlt | rfl
  · exact h.closed m r₁ hr₁ hc j hlt
  · exact ⟨r₁, hr₁, hc⟩

/-- A question is reported in its turn. -/
theorem Chain.inTurn (hk : acks[k]? = some ⟨previous, turn, q :: rest, attempt, false⟩)
    (hbefore : ∀ j < k, ∃ r' : AckRoutine, acks[j]? = some r' ∧ r'.closed = true) :
    (Event.reported k q turn).InTurn trace := by
  refine ⟨fun j hj acks' turn' hmem => ?_, _, turn, (h.routines k _ hk).started, ⟨rest, ?_⟩⟩
  · obtain ⟨r', hr', hc⟩ := hbefore j hj
    have hlinked := h.routines j r' hr'
    rw [hlinked.only acks' turn' hmem, hlinked.closed hc, List.append_nil]
  · rw [List.append_assoc, List.singleton_append]

end

end

/-! ### The loop -/

/-- What the loop knows is what the events say, and all requests and reports have come in their
turn. -/
structure Linked (s : Session) : Prop where
  requested : s.requested = outstanding s.trace
  speaking : s.speaking = userSpeaks s.trace
  responding : ∀ r, inProgress r s.trace = true → r ∈ s.responding
  chain : Chain s.barrier s.acks s.trace
  inTurn : Each Event.InTurn s.trace

/-- Whether an event is neither of the provider nor of a goroutine that reports, and no request. -/
def Event.plain : Event → Bool
  | .added _ => true
  | .announced _ _ => true
  | .refused _ _ => true
  | .dispatched _ _ _ => true
  | .called _ _ _ => true
  | .taken _ => true
  | .output _ _ => true
  | _ => false

/-- An event that is about no goroutine. -/
theorem Linked.happened (h : Linked s) (he : e.plain = true) :
    Linked (s.happened e) := by
  have hrequested : outstanding (e :: s.trace) = outstanding s.trace := by
    cases e <;> first | rfl | cases he
  have hspeaks : userSpeaks (e :: s.trace) = userSpeaks s.trace := by
    cases e <;> first | rfl | cases he
  have hprogress : ∀ r, inProgress r (e :: s.trace) = inProgress r s.trace := by
    cases e <;> first | exact fun _ => rfl | cases he
  have hroutine : e.routine = none := by cases e <;> first | rfl | cases he
  have hturn : e.InTurn s.trace := by cases e <;> trivial
  exact ⟨h.requested.trans hrequested.symm, h.speaking.trans hspeaks.symm,
    fun r hr => h.responding r ((hprogress r).symm.trans hr), h.chain.cons hroutine, hturn,
      h.inTurn⟩

/-- A part of a step: at most one request is sent, only if there is something to speak, and it stays
outstanding. -/
structure Asks (s s' : Session) : Prop where
  linked : Linked s → Linked s'
  waits : s.requested = true → s'.requested = true ∧ s'.unspoken = s.unspoken ∧
    s'.trace.count .requested = s.trace.count .requested
  asks : s'.trace.count .requested = s.trace.count .requested ∨
    s'.trace.count .requested = s.trace.count .requested + 1 ∧ s'.requested = true ∧
      s'.unspoken.want = true

theorem Asks.trans (h : Asks s s₁) (h' : Asks s₁ s') : Asks s s' := by
  refine ⟨fun hs => h'.linked (h.linked hs), fun hr => ?_, ?_⟩
  · obtain ⟨hr₁, hu₁, hc₁⟩ := h.waits hr
    obtain ⟨hr', hu', hc'⟩ := h'.waits hr₁
    exact ⟨hr', hu'.trans hu₁, hc'.trans hc₁⟩
  · rcases h.asks with hc₁ | ⟨hc₁, hr₁, hw₁⟩
    · rw [← hc₁]
      exact h'.asks
    · obtain ⟨hr', hu', hc'⟩ := h'.waits hr₁
      exact .inr ⟨hc'.trans hc₁, hr', hu' ▸ hw₁⟩

/-- An event that asks nothing. -/
theorem Asks.happened (s : Session) (he : e.plain = true) : Asks s (s.happened e) := by
  have hcount : (s.happened e).trace.count .requested = s.trace.count .requested :=
    List.count_cons_of_ne (by rintro rfl; cases he)
  exact ⟨fun h => h.happened he, fun hr => ⟨hr, rfl, hcount⟩, .inl hcount⟩

/-- The books say nothing of requests and reports. -/
theorem Asks.of_eq (hlinked : Linked s → Linked s') (hrequested : s'.requested = s.requested)
    (hunspoken : s'.unspoken = s.unspoken) (htrace : s'.trace = s.trace) : Asks s s' := by
  have hcount : s'.trace.count .requested = s.trace.count .requested := by rw [htrace]
  exact ⟨hlinked, fun hr => ⟨hrequested.trans hr, hunspoken, hcount⟩, .inl hcount⟩

/-- The books of the loop are about no question. -/
theorem Asks.books (s : Session) (oracle : Oracle) (ended : Bool)
    (batches : AList fun _ : String => CallBatch) (callResponse : AList fun _ : String => String)
    (inFlight : ℤ) : Asks s { s with
      oracle := oracle
      ended := ended
      batches := batches
      callResponse := callResponse
      inFlight := inFlight } :=
  .of_eq (fun h => ⟨h.requested, h.speaking, h.responding, h.chain, h.inTurn⟩) rfl rfl rfl

/-- A question is put into the conversation. -/
theorem Asks.added (s : Session) (question : Option Question) : Asks s (s.added question) := by
  have hadded : Asks s { s with trace := question.toList.map Event.added ++ s.trace } := by
    cases question with
    | none => exact .of_eq id rfl rfl rfl
    | some q => exact .happened s (e := .added q) rfl
  unfold Session.added
  refine hadded.trans ?_
  dsimp only
  split_ifs with hr
  · exact .of_eq (fun h => ⟨h.requested, h.speaking, h.responding, h.chain, h.inTurn⟩) rfl rfl rfl
  · exact ⟨fun h => ⟨h.requested, h.speaking, h.responding, h.chain, h.inTurn⟩,
      fun hr' => absurd hr' hr, .inl rfl⟩

/-- A response is asked for, if none is. -/
theorem Asks.respond (s : Session) : Asks s s.respond := by
  unfold Session.respond
  split_ifs with hnot
  · exact .of_eq id rfl rfl rfl
  · have hwrite : Asks s s.write.2 ∧ s.write.2.requested = s.requested ∧
        s.write.2.unspoken = s.unspoken ∧ s.write.2.speaking = s.speaking ∧
        s.write.2.responding = s.responding := by
      unfold Session.write
      split
      · exact ⟨.of_eq id rfl rfl rfl, rfl, rfl, rfl, rfl⟩
      · exact ⟨.books s _ _ _ _ _, rfl, rfl, rfl, rfl⟩
    obtain ⟨hasks, hrequested, hunspoken, hspeaking, hresponding⟩ := hwrite
    rcases heq : s.write with ⟨ok, s'⟩
    rw [heq] at hasks hrequested hunspoken hspeaking hresponding
    push Not at hnot
    obtain ⟨hwant, hr, hs, hnone⟩ := hnot
    cases ok with
    | true =>
      refine hasks.trans ⟨fun h => ?_, fun hr' => ?_, .inr ⟨?_, rfl, ?_⟩⟩
      · have hout : outstanding s'.trace = false := by
          rw [← h.requested, hrequested]
          simpa using hr
        have hspeaks : userSpeaks s'.trace = false := by
          rw [← h.speaking, hspeaking]
          simpa using hs
        have hidle : ∀ r, inProgress r s'.trace = false := by
          intro r
          by_contra hprogress
          have hmem := h.responding r (by simpa using hprogress)
          rw [hresponding, hnone] at hmem
          cases hmem
        exact ⟨rfl, h.speaking, h.responding, h.chain.cons rfl, ⟨hout, hspeaks, hidle⟩, h.inTurn⟩
      · exact absurd (hrequested ▸ hr') (by simpa using hr)
      · exact List.count_cons_self
      · exact (congrArg Delivered.want hunspoken).trans (by simpa using hwant)
    | false => exact hasks

/-- Every walk of the loop asks in this way. -/
theorem asks_walk : Walk Asks where
  refl _ := .of_eq id rfl rfl rfl
  trans _ _ _ h h' := h.trans h'
  books := .books
  happened s e he := .happened s (by cases e <;> first | rfl | cases he)
  added := .added
  respond := .respond

section

variable (s : Session)

theorem Asks.functionCall (call : FunctionCall) : Asks s (s.jarvisFunctionCall call) := by
  refine asks_walk.jarvisFunctionCall (fun s callID responseID turn => ?_) s call
  refine (Asks.happened s (e := .dispatched s.calls.length responseID turn) rfl).trans ?_
  exact .of_eq (fun h => ⟨h.requested, h.speaking, h.responding, h.chain, h.inTurn⟩) rfl rfl rfl

/-- A response is done. -/
theorem Asks.done (responseID : String) (responseTurns : AList fun _ : String => ℕ)
    (batches : AList fun _ : String => CallBatch) : Asks s { s with
      responding := s.responding.erase responseID
      responseTurns := responseTurns
      batches := batches
      trace := .done responseID :: s.trace } := by
  have hcount : (Event.done responseID :: s.trace).count .requested = s.trace.count .requested :=
    List.count_cons_of_ne (by rintro ⟨⟩)
  refine ⟨fun h => ⟨h.requested, h.speaking, fun r hr => ?_, h.chain.cons rfl, trivial, h.inTurn⟩,
    fun hr => ⟨hr, rfl, hcount⟩, .inl hcount⟩
  rw [inProgress, Bool.and_eq_true, decide_eq_true_iff] at hr
  exact (List.mem_erase_of_ne (Ne.symm hr.1)).mpr (h.responding r hr.2)

theorem Asks.responseDone (responseID : String) (calls : List FunctionCall) :
    Asks s (s.jarvisResponseDone responseID calls) := by
  unfold Session.jarvisResponseDone
  have hcalls := asks_walk.functionCalls Asks.functionCall calls s
  exact (hcalls.trans (.done _ responseID _ _)).trans (asks_walk.deliver _)

theorem Asks.record (full : Bool) (turn : Turn) : Asks s (s.record full turn) := by
  unfold Session.record
  split_ifs
  · exact .of_eq id rfl rfl rfl
  · exact .of_eq (fun h => ⟨h.requested, h.speaking, h.responding, h.chain, h.inTurn⟩) rfl rfl rfl

theorem Asks.speechStarted : Asks s s.jarvisSpeechStarted := by
  have hcount : (Event.speechStarted :: s.trace).count .requested = s.trace.count .requested :=
    List.count_cons_of_ne (by rintro ⟨⟩)
  exact ⟨fun h => ⟨h.requested, rfl, h.responding, h.chain.cons rfl, trivial, h.inTurn⟩,
    fun hr => ⟨hr, rfl, hcount⟩, .inl hcount⟩

theorem Asks.speechStopped (itemID : String) (full : Bool) :
    Asks s (s.jarvisSpeechStopped itemID full) := by
  unfold Session.jarvisSpeechStopped
  refine Asks.trans ?_ (.record _ _ _)
  have hcount : (Event.speechStopped :: s.trace).count .requested = s.trace.count .requested :=
    List.count_cons_of_ne (by rintro ⟨⟩)
  exact ⟨fun h => ⟨h.requested, rfl, h.responding, h.chain.cons rfl, trivial, h.inTurn⟩,
    fun hr => ⟨hr, rfl, hcount⟩, .inl hcount⟩

theorem Asks.transcript (final user : Bool) (itemID text : String) (full : Bool) :
    Asks s (s.jarvisTranscript final user itemID text full) := by
  unfold Session.jarvisTranscript
  split_ifs
  · exact .of_eq id rfl rfl rfl
  · refine Asks.trans ?_ (.record _ _ _)
    exact .of_eq (fun h => ⟨h.requested, h.speaking, h.responding, h.chain, h.inTurn⟩) rfl rfl rfl
  · exact .record _ _ _

theorem Asks.setCall (c : ℕ) (call : CallRoutine) (status : CallStatus) :
    Asks s (s.setCall c call status) :=
  .of_eq (fun h => ⟨h.requested, h.speaking, h.responding, h.chain, h.inTurn⟩) rfl rfl rfl

end

/-! ### Every run -/

/-- The same of a whole step, after which a request need not be outstanding any more. -/
structure Asked (s s' : Session) : Prop where
  linked : Linked s → Linked s'
  asks : s'.trace.count .requested = s.trace.count .requested ∨
    s'.trace.count .requested = s.trace.count .requested + 1 ∧ s'.unspoken.want = true

theorem Asks.asked (h : Asks s s') : Asked s s' :=
  ⟨h.linked, h.asks.imp_right fun ⟨hcount, _, hwant⟩ => ⟨hcount, hwant⟩⟩

/-- A response is created. -/
theorem asked_responseCreated (s : Session) (responseID : String) :
    Asked s (s.jarvisResponseCreated responseID) := by
  unfold Session.jarvisResponseCreated
  dsimp only
  have hprogress : Linked s → ∀ r, inProgress r (.created responseID :: s.trace) = true →
      r ∈ s.responding.insert responseID := by
    intro h r hr
    rw [inProgress, Bool.or_eq_true, decide_eq_true_iff] at hr
    rw [List.mem_insert_iff]
    rcases hr with heq | hr
    · exact .inl heq.symm
    · exact .inr (h.responding r hr)
  split_ifs with hacks
  · refine ⟨fun h => ?_, .inl (by simp)⟩
    exact ⟨rfl, h.speaking, hprogress h, h.chain.cons rfl, trivial, h.inTurn⟩
  · refine ⟨fun h => ?_, .inl (by simp [Session.startAcks])⟩
    have hcreated := h.chain.cons (e := .created responseID) rfl
    refine ⟨rfl, h.speaking, hprogress h, hcreated.start _ _, ⟨⟨responseID, s.trace, rfl⟩, ?_⟩,
      trivial, h.inTurn⟩
    exact fun j acks turn hmem => hcreated.started _ hmem j rfl

/-- An error, and what is then requested anew. -/
theorem asked_providerError (s : Session) : Asked s s.jarvisProviderError := by
  have hcount : (Event.failed :: s.trace).count .requested = s.trace.count .requested :=
    List.count_cons_of_ne (by rintro ⟨⟩)
  unfold Session.jarvisProviderError
  dsimp only
  split_ifs with hr hf
  · have hr : s.requested = false := by simpa [Session.happened] using hr
    exact ⟨fun h => ⟨hr, h.speaking, h.responding, h.chain.cons rfl, trivial,
      h.inTurn⟩, .inl hcount⟩
  · exact ⟨fun h => ⟨rfl, h.speaking, h.responding, h.chain.cons rfl, trivial,
      h.inTurn⟩, .inl hcount⟩
  · set s₁ : Session := { s.happened .failed with
      requested := false
      unspoken := (s.happened .failed).unspoken.add (s.happened .failed).afterRequest
      afterRequest := {}
      createFailures := (s.happened .failed).createFailures + 1 }
    have hlinked : Linked s → Linked s₁ := fun h =>
      ⟨rfl, h.speaking, h.responding, h.chain.cons rfl, trivial, h.inTurn⟩
    have hcount₁ : s₁.trace.count .requested = s.trace.count .requested := hcount
    have hrespond := (Asks.respond s₁).asked
    refine ⟨fun h => hrespond.linked (hlinked h), ?_⟩
    rw [← hcount₁]
    exact hrespond.asks

variable {s s' : Session}

/-- The loop handles an input. -/
theorem asked_handle (hs : s.handle i = some s') : Asked s s' := by
  cases i with
  | speechStarted =>
    cases hs
    exact (Asks.speechStarted s).asked
  | speechStopped itemID full =>
    cases hs
    exact (Asks.speechStopped s itemID full).asked
  | transcript final user itemID text full =>
    cases hs
    exact (Asks.transcript s final user itemID text full).asked
  | responseCreated responseID =>
    cases hs
    exact asked_responseCreated s responseID
  | responseDone responseID calls =>
    cases hs
    exact (Asks.responseDone s responseID calls).asked
  | functionCall call =>
    cases hs
    exact (Asks.functionCall s call).asked
  | providerError =>
    cases hs
    exact asked_providerError s
  | notice eventID =>
    cases hs
    exact (asks_walk.jarvisNotice s eventID).asked
  | result c =>
    simp only [Session.handle] at hs
    split at hs
    · split at hs
      · cases hs
        exact ((Asks.setCall s c _ _).trans (asks_walk.jarvisResult _ _)).asked
      · cases hs
    · cases hs

/-- A goroutine reports a question. -/
theorem asked_sendAck {outcome : AckOutcome} (hs : s.sendAck k outcome = some s') :
    Asked s s' := by
  unfold Session.sendAck at hs
  split at hs
  next previous turn q rest attempt hk =>
    dsimp only at hs
    split_ifs at hs with hprevious
    all_goals
      cases hs
      have hbefore : Linked s → (Event.reported k q turn).InTurn s.trace := fun h =>
        h.chain.inTurn hk (h.chain.closed_before hk fun m hm =>
          isClosed_some.mp (by simpa [← hm] using hprevious))
    · refine ⟨fun h => ?_, .inl (by simp [Session.happened])⟩
      have hreported := h.chain.cons (e := .reported k q turn) rfl
      have hr := hreported.routines k _ hk
      exact ⟨h.requested, h.speaking, h.responding,
        hreported.set hk rfl ⟨hr.previous, hr.started, hr.only, (fun hc => nomatch hc)⟩
          (fun hc => nomatch hc), hbefore h, h.inTurn⟩
    · refine ⟨fun h => ?_, .inl (by simp [Session.happened])⟩
      have hreported := h.chain.cons (e := .reported k q turn) rfl
      exact ⟨h.requested, h.speaking, h.responding, hreported.settle hk, trivial,
        hbefore h, h.inTurn⟩
  next => cases hs

/-- A goroutine has reported all of its questions. -/
theorem asked_closeBarrier (hs : s.closeBarrier k = some s') : Asked s s' := by
  unfold Session.closeBarrier at hs
  split at hs
  next previous turn attempt hk =>
    split_ifs at hs with hprevious
    cases hs
    refine ⟨fun h => ?_, .inl rfl⟩
    have hbefore := h.chain.closed_before hk fun m hm =>
      isClosed_some.mp (by simpa [← hm] using hprevious)
    have hr := h.chain.routines k _ hk
    exact ⟨h.requested, h.speaking, h.responding,
      h.chain.set hk rfl ⟨hr.previous, hr.started, hr.only, fun _ => rfl⟩
        (fun _ => hbefore), h.inTurn⟩
  next => cases hs

/-- Every step asks in this way. -/
theorem asked_step (hs : s.step l = some s') : Asked s s' := by
  cases l with
  | input i oracle =>
    have h := asked_handle hs
    exact ⟨fun hl => h.linked ⟨hl.requested, hl.speaking, hl.responding, hl.chain,
      hl.inTurn⟩, h.asks⟩
  | ack k outcome => exact asked_sendAck hs
  | close k => exact asked_closeBarrier hs
  | issue c =>
    simp only [Session.step, Session.issue] at hs
    split at hs
    next call _ =>
      split_ifs at hs
      cases hs
      exact ((Asks.setCall s c call .issued).trans (.happened _ rfl)).asked
    next => cases hs
  | reply c r =>
    simp only [Session.step, Session.reply] at hs
    split at hs
    · split_ifs at hs <;> (cases hs; exact (Asks.setCall s c _ _).asked)
    · cases hs
  | leave c =>
    simp only [Session.step, Session.leave] at hs
    split at hs
    · split_ifs at hs
      cases hs
      exact (Asks.setCall s c _ _).asked
    · cases hs
  | finish =>
    cases hs
    exact ⟨fun h => ⟨h.requested, h.speaking, h.responding, h.chain, h.inTurn⟩, .inl rfl⟩

/-- In every run the loop knows what the events say. -/
theorem linked_of_runs (h : Runs Session.step (fun _ _ => True) {} ls s) : Linked s := by
  refine Runs.inv (fun _ _ _ hs _ hstep => (asked_step hstep).linked hs) h ?_
  refine ⟨rfl, rfl, (fun r hr => nomatch hr),
    ⟨rfl, fun e he => (List.not_mem_nil he).elim, ?_, ?_⟩, trivial⟩
  · intro k r hk
    rw [List.getElem?_nil] at hk
    cases hk
  · intro k r hk
    rw [List.getElem?_nil] at hk
    cases hk

/-- In every run the questions are in order. -/
theorem inOrder_of_runs (h : Runs Session.step (fun _ _ => True) {} ls s) : s.said.InOrder :=
  Runs.inv (P := fun s => s.said.InOrder) (fun _ _ _ hs _ hstep => (takes_step hstep).inOrder hs) h
    ⟨rfl, fun _ => rfl⟩

/-- **Questions are neither lost nor reported twice.** After every run the questions that were
handed to `added` are those that were passed to `startAcks`, in the same order, followed by those in
`unspoken` and in `afterRequest`. Requests and reports come in their turn: a batch is that of the
response just created and comes after the earlier ones, a question is reported when all that were
passed before it are settled, and a request is sent when none is outstanding, the user does not
speak and no response is running. A step sends at most one request, and only if something waits to
be spoken. -/
theorem questions_conserved (h : Runs Session.step (fun _ _ => True) {} ls s) :
    given s.trace = spoken s.trace ++ s.unspoken.acks ++ s.afterRequest.acks ∧
      Each Event.InTurn s.trace ∧
      ∀ l s', s.step l = some s' → s'.trace.count .requested = s.trace.count .requested ∨
        s'.trace.count .requested = s.trace.count .requested + 1 ∧ s'.unspoken.want = true :=
  ⟨(inOrder_of_runs h).given, (linked_of_runs h).inTurn, fun _ _ hstep => (asked_step hstep).asks⟩

/-- A request fails twice while the questions pile up, and the next response reports them. -/
def failedTwice : List Label :=
  [.input (.notice 1) {}, .input (.notice 2) {}, .input .providerError {}, .input (.notice 3) {},
    .input .providerError {}, .input (.responseCreated "r") {}, .ack 0 .stored, .ack 0 .failed]

/-- One response reports all three. -/
theorem questions_conserved_failedTwice : ∃ s, Runs Session.step (fun _ _ => True)
    {} failedTwice s ∧ spoken s.trace = [.event 1, .event 2, .event 3] ∧
    given s.trace = spoken s.trace ++ s.unspoken.acks ++ s.afterRequest.acks := by
  obtain ⟨s, hrun, hspoken⟩ : ∃ s, Runs Session.step (fun _ _ => true = true) {} failedTwice s ∧
      spoken s.trace = [.event 1, .event 2, .event 3] := exists_of_run (by decide +kernel)
  have hrun' := hrun.weaken (fun _ _ _ => trivial)
  exact ⟨s, hrun', hspoken, (questions_conserved hrun').1⟩

end Jarvis.Gateway
