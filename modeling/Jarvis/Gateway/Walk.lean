import Jarvis.Gateway.Session

/-!
# The voice gateway: what the loop does with results

Several handlers end in `deliver`, which gives results to the model and then asks it to speak. What
all of its parts do to a session, as a reflexive and transitive relation, the handlers do (`Walk`).
-/

namespace Jarvis.Gateway

/-- Whether an event is only about function calls and their outputs. -/
def Event.aboutCalls : Event → Bool
  | .announced _ _ => true
  | .refused _ _ => true
  | .taken _ => true
  | .output _ _ => true
  | _ => false

/-- A relation that holds of every part of delivering results. -/
structure Walk (R : Session → Session → Prop) : Prop where
  refl : ∀ s, R s s
  trans : ∀ s s₁ s', R s s₁ → R s₁ s' → R s s'
  /-- The loop keeps its books. -/
  books : ∀ (s : Session) oracle ended batches callResponse inFlight, R s { s with
    oracle := oracle
    ended := ended
    batches := batches
    callResponse := callResponse
    inFlight := inFlight }
  happened : ∀ (s : Session) (e : Event), e.aboutCalls = true → R s (s.happened e)
  added : ∀ (s : Session) question, R s (s.added question)
  respond : ∀ s : Session, R s s.respond

namespace Walk

variable {R : Session → Session → Prop}

/-- One write. -/
theorem write (h : Walk R) (s : Session) : R s s.write.2 := by
  unfold Session.write
  split
  · exact h.refl s
  · exact h.books s _ _ _ _ _

/-- A result. -/
theorem deliverResult (h : Walk R) (s : Session) (r : ToolResult) : R s (s.deliverResult r).2 := by
  unfold Session.deliverResult
  have herase : R s { s with callResponse := s.callResponse.erase r.callID } := h.books s _ _ _ _ _
  have hwrite := h.trans _ _ _ herase
    (h.write { s with callResponse := s.callResponse.erase r.callID })
  rcases heq : Session.write { s with callResponse := s.callResponse.erase r.callID } with ⟨ok, s'⟩
  rw [heq] at hwrite
  cases ok with
  | true =>
    have hsent := h.trans _ _ _ hwrite (h.happened s' (.output r.callID r.output) rfl)
    exact h.trans _ _ _ hsent (h.added _ _)
  | false => exact hwrite

/-- The results of a batch. -/
theorem deliverResults (h : Walk R) (results : List ToolResult) (s : Session) :
    R s (Session.deliverResults results s).2 := by
  induction results generalizing s with
  | nil => exact h.refl s
  | cons r rest ih =>
    unfold Session.deliverResults
    have hr := h.deliverResult s r
    rcases heq : s.deliverResult r with ⟨ok, s'⟩
    rw [heq] at hr
    cases ok with
    | true => exact h.trans _ _ _ hr (ih s')
    | false => exact hr

/-- All batches that are complete. -/
theorem deliverBatches (h : Walk R) (ids : List String) (s : Session) :
    R s (Session.deliverBatches ids s).2 := by
  induction ids generalizing s with
  | nil => exact h.refl s
  | cons id rest ih =>
    unfold Session.deliverBatches
    cases hb : s.batches.lookup id with
    | none => exact ih s
    | some batch =>
      dsimp only
      split_ifs with hready
      · exact ih s
      · have herase : R s { s with batches := s.batches.erase id } := h.books s _ _ _ _ _
        have hr := h.trans _ _ _ herase (h.deliverResults batch.results _)
        rcases heq : Session.deliverResults batch.results
          { s with batches := s.batches.erase id } with ⟨ok, s'⟩
        rw [heq] at hr
        cases ok with
        | true => exact h.trans _ _ _ hr (ih s')
        | false => exact hr

/-- Whatever can be delivered. -/
theorem deliver (h : Walk R) (s : Session) : R s s.deliver := by
  unfold Session.deliver
  set s₀ : Session := { s with oracle := { s.oracle with orders := s.oracle.orders.tail } }
  have hs₀ : R s s₀ := h.books s _ _ _ _ _
  have hb := h.trans _ _ _ hs₀ (h.deliverBatches (s.oracle.orders.headD [] ++ s₀.batches.keys) s₀)
  dsimp only
  rcases heq : Session.deliverBatches (s.oracle.orders.headD [] ++ s₀.batches.keys) s₀ with ⟨ok, s'⟩
  rw [heq] at hb
  cases ok with
  | true => exact h.trans _ _ _ hb (h.respond s')
  | false => exact hb

/-- A call that is complete. -/
theorem completeCall (h : Walk R) (s : Session) (r : ToolResult) : R s (s.completeCall r) := by
  unfold Session.completeCall
  split
  · exact h.deliver s
  · have hinsert : ∀ batches, R s { s with batches := batches } := fun _ => h.books s _ _ _ _ _
    exact h.trans _ _ _ (hinsert _) (h.deliver _)

theorem jarvisResult (h : Walk R) (s : Session) (r : ToolResult) : R s (s.jarvisResult r) := by
  unfold Session.jarvisResult
  have hcount : R s { s with inFlight := s.inFlight - 1 } := h.books s _ _ _ _ _
  have htaken := h.trans _ _ _ hcount (h.happened _ (.taken r) rfl)
  exact h.trans _ _ _ htaken (h.completeCall _ r)

/-- A notice of the orchestrator. -/
theorem jarvisNotice (h : Walk R) (s : Session) (eventID : ℤ) : R s (s.jarvisNotice eventID) := by
  unfold Session.jarvisNotice
  have hwrite := h.write s
  rcases heq : s.write with ⟨ok, s'⟩
  rw [heq] at hwrite
  cases ok with
  | true => exact h.trans _ _ _ (h.trans _ _ _ hwrite (h.added s' _)) (h.respond _)
  | false => exact hwrite

/-- A call is announced, and is refused or dispatched. -/
theorem jarvisFunctionCall (h : Walk R)
    (hdispatch : ∀ (s : Session) callID responseID turn, R s { s with
      inFlight := s.inFlight + 1
      calls := s.calls ++ [⟨s.barrier, callID, responseID, turn, .waiting⟩]
      trace := .dispatched s.calls.length responseID turn :: s.trace }) (s : Session)
    (call : FunctionCall) : R s (s.jarvisFunctionCall call) := by
  unfold Session.jarvisFunctionCall
  by_cases hrunning : (s.callResponse.lookup call.callID).isSome = true
  · rw [if_pos hrunning]
    exact h.refl s
  · rw [if_neg hrunning]
    generalize (if call.responseID = "" then s.lastResponse else call.responseID) = responseID
    dsimp only
    generalize { ((s.batches.lookup responseID).getD {}) with
      outstanding := ((s.batches.lookup responseID).getD {}).outstanding + 1 : CallBatch } = batch
    set s₁ : Session := { s with
      batches := s.batches.insert responseID batch
      callResponse := s.callResponse.insert call.callID responseID
      trace := .announced call.callID responseID :: s.trace }
    have hannounced : R s s₁ :=
      h.trans _ _ _ (h.books s s.oracle s.ended (s.batches.insert responseID batch)
        (s.callResponse.insert call.callID responseID) s.inFlight)
        (h.happened _ (.announced call.callID responseID) rfl)
    split_ifs with hbusy
    · have hrefused := h.trans _ _ _ hannounced
        (h.happened s₁ (.refused call.callID responseID) rfl)
      exact h.trans _ _ _ hrefused (h.completeCall _ _)
    · exact h.trans _ _ _ hannounced (hdispatch s₁ _ _ _)

/-- All calls of a response. -/
theorem functionCalls (h : Walk R) (hcall : ∀ s call, R s (Session.jarvisFunctionCall s call))
    (calls : List FunctionCall) (s : Session) : R s (calls.foldl Session.jarvisFunctionCall s) := by
  induction calls generalizing s with
  | nil => exact h.refl s
  | cons call rest ih => exact h.trans _ _ _ (hcall s call) (ih _)

end Walk

end Jarvis.Gateway
