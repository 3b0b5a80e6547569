import Jarvis.Orchestrator.Progress

/-!
# Task histories

A well-formed history is an opening and then segments: a step of the model with the results of its
first calls, in order. All segments but the last have every result, and the calls the last one still
has no result for are those that are stored as pending.
-/

namespace Jarvis.Orchestrator

open Interleave Engine

variable {P : Params}

/-- One more element on the right of a `zipWith` meets the next one on the left. -/
theorem zipWith_concat {α β γ : Type} (f : α → β → γ) {xs rest : List α} {ys : List β} {x : α}
    {y : β} (h : xs.drop ys.length = x :: rest) :
    List.zipWith f xs (ys ++ [y]) = List.zipWith f xs ys ++ [f x y] := by
  induction ys generalizing xs with
  | nil =>
    obtain rfl : xs = x :: rest := h
    simp
  | cons z ys ih =>
    cases xs with
    | nil => cases h
    | cons w xs => simp [ih h]

/-- A step of the model, and the outputs of its first calls. -/
structure Segment where
  resp : DecideResponse
  outs : List String

namespace Segment

/-- The results of the calls that have been run. -/
def results (b : Segment) : List Item :=
  List.zipWith (fun (call : ToolCall) out => toolResult call.callID out) b.resp.toolCalls b.outs

/-- The items of a segment. -/
def items (b : Segment) : List Item := .modelStep b.resp.step :: b.results

/-- The calls that have not been run. -/
def rest (b : Segment) : List ToolCall := b.resp.toolCalls.drop b.outs.length

/-- The segment with one more output. -/
def answer (b : Segment) (out : String) : Segment := ⟨b.resp, b.outs ++ [out]⟩

variable {b : Segment} {call : ToolCall} {calls : List ToolCall}

theorem length_le_of_rest (h : b.rest = call :: calls) :
    b.outs.length + 1 ≤ b.resp.toolCalls.length := by
  have hlen := congrArg List.length h
  simp only [rest, List.length_drop, List.length_cons] at hlen
  omega

/-- One more output is the result of the next call. -/
theorem results_answer (out : String) (h : b.rest = call :: calls) :
    (b.answer out).results = b.results ++ [toolResult call.callID out] :=
  zipWith_concat _ h

theorem rest_answer (out : String) (h : b.rest = call :: calls) : (b.answer out).rest = calls := by
  have hdrop : (b.answer out).rest = b.rest.tail := by
    simp [rest, answer, List.tail_drop]
  rw [hdrop, h, List.tail_cons]

end Segment

/-- The calls still to run after some segments. -/
def pendingAfter (segments : List Segment) : List ToolCall :=
  (segments.getLast?.map Segment.rest).getD []

/-- The items of a history made of an opening and segments. -/
def historyOf (intro : String) (segments : List Segment) : List Item :=
  .userText intro :: segments.flatMap Segment.items

/-- Segments with results for the calls of each step, in order and no more than there are calls; for
all the calls of each step but the last. -/
structure Segments (answers : DecideResponse → Prop) (segments : List Segment) : Prop where
  answers : ∀ b ∈ segments, answers b.resp
  fits : ∀ b ∈ segments, b.outs.length ≤ b.resp.toolCalls.length
  complete : ∀ b ∈ segments.dropLast, b.outs.length = b.resp.toolCalls.length

namespace Segments

variable {answers : DecideResponse → Prop} {segments : List Segment}

/-- With nothing pending, every segment is complete. -/
theorem complete_of_pending (h : Segments answers segments) (hp : pendingAfter segments = []) :
    ∀ b ∈ segments, b.outs.length = b.resp.toolCalls.length := by
  rcases List.eq_nil_or_concat segments with rfl | ⟨bs, last, rfl⟩
  · simp
  · intro b hb
    rcases List.mem_append.mp (by simpa using hb : b ∈ bs ++ [last]) with hb | hb
    · exact h.complete b (by simpa using hb)
    · obtain rfl := List.mem_singleton.mp hb
      have hdrop : b.resp.toolCalls.length ≤ b.outs.length := by
        simpa [pendingAfter, Segment.rest, List.drop_eq_nil_iff] using hp
      exact le_antisymm (h.fits b (by simp)) hdrop

/-- The model takes a step. -/
theorem step (h : Segments answers segments) (hp : pendingAfter segments = []) (ha : answers resp) :
    Segments answers (segments ++ [⟨resp, []⟩]) where
  answers b hb := by
    rcases List.mem_append.mp hb with hb | hb
    · exact h.answers b hb
    · obtain rfl := List.mem_singleton.mp hb
      exact ha
  fits b hb := by
    rcases List.mem_append.mp hb with hb | hb
    · exact h.fits b hb
    · obtain rfl := List.mem_singleton.mp hb
      exact Nat.zero_le _
  complete b hb := h.complete_of_pending hp b (by simpa using hb)

/-- The next call gets its result. -/
theorem result (h : Segments answers (bs ++ [b])) (out : String) (hp : b.rest = call :: calls) :
    Segments answers (bs ++ [b.answer out]) where
  answers x hx := by
    rcases List.mem_append.mp hx with hx | hx
    · exact h.answers x (List.mem_append_left _ hx)
    · obtain rfl := List.mem_singleton.mp hx
      exact h.answers b (by simp)
  fits x hx := by
    rcases List.mem_append.mp hx with hx | hx
    · exact h.fits x (List.mem_append_left _ hx)
    · obtain rfl := List.mem_singleton.mp hx
      simpa [Segment.answer] using Segment.length_le_of_rest hp
  complete x hx := h.complete x (by simpa using hx)

end Segments

/-- **A well-formed history is an opening and segments**, and what is pending is the rest of the
last segment. -/
theorem WellFormed.segments {answers : DecideResponse → Prop} (h : WellFormed answers items calls) :
    ∃ intro segments,
      Segments answers segments ∧ items = historyOf intro segments ∧
      calls = pendingAfter segments := by
  induction h with
  | opening intro => exact ⟨intro, [], ⟨by simp, by simp, by simp⟩, rfl, rfl⟩
  | @step items resp _ ha ih =>
    obtain ⟨intro, segments, hb, rfl, hp⟩ := ih
    refine ⟨intro, segments ++ [⟨resp, []⟩], hb.step hp.symm ha, ?_, ?_⟩
    · simp [historyOf, Segment.items, Segment.results]
    · simp [pendingAfter, Segment.rest]
  | @result items call calls out _ ih =>
    obtain ⟨intro, segments, hb, rfl, hp⟩ := ih
    -- There is a last segment, since a call is pending.
    rcases List.eq_nil_or_concat segments with rfl | ⟨bs, last, rfl⟩
    · simp [pendingAfter] at hp
    · have hrest : last.rest = call :: calls := by
        simpa [pendingAfter] using hp.symm
      rw [List.concat_eq_append] at hb
      refine ⟨intro, bs ++ [last.answer out], hb.result out hrest, ?_, ?_⟩
      · have hitems : (last.answer out).items = last.items ++ [toolResult call.callID out] := by
          rw [Segment.items, Segment.results_answer out hrest]
          rfl
        simp [historyOf, hitems]
      · simp [pendingAfter, Segment.rest_answer out hrest]

end Jarvis.Orchestrator
