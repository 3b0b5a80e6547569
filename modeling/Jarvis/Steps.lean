import Mathlib.Data.List.Basic

/-!
# Runs of a step function

A system is a function `step` that says what a label does in a state, if it can happen there at
all; `ok` is a condition on steps. `Runs step ok s ls s'`: the labels `ls`, all of whose steps meet
the condition, lead from `s` to `s'`.
-/

namespace Jarvis.Steps

variable {S L : Type}

/-- The labels `ls` lead from one state to another. -/
inductive Runs (step : S → L → Option S) (ok : S → L → Prop) : S → List L → S → Prop
  | nil (s : S) : Runs step ok s [] s
  | cons {s s₁ s' : S} {l : L} {ls : List L} (hok : ok s l) (hstep : step s l = some s₁)
      (h : Runs step ok s₁ ls s') : Runs step ok s (l :: ls) s'

variable {step : S → L → Option S} {ok : S → L → Prop}

variable {ls : List L}

namespace Runs

/-- What every step keeps, a run keeps. -/
theorem inv {P : S → Prop} (hstep : ∀ s l s', P s → ok s l → step s l = some s' → P s')
    (h : Runs step ok s ls s') (hs : P s) : P s' := by
  induction h with
  | nil => exact hs
  | cons hok hl _ ih => exact ih (hstep _ _ _ hs hok hl)

/-- A condition on steps may be weakened. -/
theorem weaken {ok' : S → L → Prop} (h : Runs step ok s ls s') (hok : ∀ s l, ok s l → ok' s l) :
    Runs step ok' s ls s' := by
  induction h with
  | nil => exact .nil _
  | cons hl hstep _ ih => exact .cons (hok _ _ hl) hstep ih

/-- The labels of a run are those it is a run of. -/
theorem labels (h : Runs step ok s ls s') : Runs step (fun s l => l ∈ ls ∧ ok s l) s ls s' := by
  induction h with
  | nil => exact .nil _
  | cons hok hstep _ ih =>
    exact .cons ⟨List.mem_cons_self, hok⟩ hstep
      (ih.weaken fun _ _ hl => ⟨List.mem_cons_of_mem _ hl.1, hl.2⟩)

end Runs

/-- A run by evaluation; every step has to pass the check. -/
def run (step : S → L → Option S) (check : S → L → Bool) : S → List L → Option S
  | s, [] => some s
  | s, l :: ls => if check s l then (step s l).bind fun s' => run step check s' ls else none

variable {check : S → L → Bool}

theorem runs_of_run :
    ∀ {s s' : S}, run step check s ls = some s' →
    Runs step (fun s l => check s l = true) s ls s' := by
  induction ls with
  | nil =>
    intro s s' h
    obtain rfl : s = s' := Option.some.inj h
    exact .nil s
  | cons l ls ih =>
    intro s s' h
    rw [run] at h
    split_ifs at h with hc
    obtain ⟨s₁, h₁, h₂⟩ := Option.bind_eq_some_iff.mp h
    exact .cons hc h₁ (ih h₂)

/-- A concrete run, and what holds after it. -/
theorem exists_of_run {P : S → Prop} [DecidablePred P]
    (h : (run step check s ls).any (fun s' => decide (P s')) = true) :
    ∃ s', Runs step (fun s l => check s l = true) s ls s' ∧ P s' := by
  obtain ⟨s', hs', hp⟩ := (Option.any_eq_true ..).mp h
  exact ⟨s', runs_of_run hs', of_decide_eq_true hp⟩

end Jarvis.Steps
