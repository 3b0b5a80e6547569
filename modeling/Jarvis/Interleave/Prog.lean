import Mathlib.Tactic.Common

/-!
# Programs that act on a shared store one request at a time

A `Prog I R α` is a sequential program as the rest of the system sees it: a tree of requests
`i : I`, each waiting for an answer of type `R i`, that ends in a value of type `α`. What happens
between two requests is invisible and takes no time, so interleaving programs request by request
interleaves them at exactly the points where they touch shared state.

`Prog.Spec Φ Q past p` is the program logic used throughout: started after the exchanges `past`
(newest first), `p` only ever makes a request `i` when `Φ past i` holds of the exchanges it has
had so far, and when it ends with `a`, `Q past a` holds. Nothing about the shared store is
assumed, so a specification proved once holds under every interference. `Spec.inevitable` draws the
other consequence: a program whose postcondition says that a request was made will make it.
-/

namespace Jarvis.Interleave

/-- A program over requests `I` with answers `R`, ending in an `α`. -/
inductive Prog (I : Type) (R : I → Type) (α : Type) where
  /-- The program has ended. -/
  | ret (a : α)
  /-- The program makes a request and goes on with the answer. -/
  | act (i : I) (k : R i → Prog I R α)

/-- What a program has exchanged with the outside so far, newest first. -/
abbrev Past (I : Type) (R : I → Type) := List (Σ i, R i)

namespace Prog

variable {I : Type} {R : I → Type} {α β : Type}

/-- Sequential composition. -/
def bind : Prog I R α → (α → Prog I R β) → Prog I R β
  | ret a, f => f a
  | act i k, f => act i fun r => bind (k r) f

instance : Monad (Prog I R) where
  pure := ret
  bind := bind

/-- Make one request and return its answer. -/
def call (i : I) : Prog I R (R i) := act i ret

/-! ### The program logic -/

/-- `Spec Φ Q past p`: every request of `p` is allowed by `Φ` given what `p` exchanged before it,
and `p` ends in `Q`. -/
def Spec (Φ : Past I R → I → Prop) (Q : Past I R → α → Prop) : Past I R → Prog I R α → Prop
  | past, ret a => Q past a
  | past, act i k => Φ past i ∧ ∀ r, Spec Φ Q (⟨i, r⟩ :: past) (k r)

variable {Φ Φ' : Past I R → I → Prop} {past : Past I R}

variable {Q Q' : Past I R → α → Prop} {p q : Prog I R α}

/-- Ending is correct when the postcondition holds. -/
@[simp] theorem spec_ret :
    Spec Φ Q past (ret a) ↔ Q past a := Iff.rfl

/-- Ending is correct when the postcondition holds. -/
@[simp] theorem spec_pure :
    Spec Φ Q past (pure a : Prog I R α) ↔ Q past a := Iff.rfl

/-- A request is correct when it is allowed and every answer to it is dealt with correctly. -/
theorem spec_act {k : R i → Prog I R α} :
    Spec Φ Q past (act i k) ↔ Φ past i ∧ ∀ r, Spec Φ Q (⟨i, r⟩ :: past) (k r) := Iff.rfl

/-- The specification of a single request. -/
@[simp] theorem spec_call {Q : Past I R → R i → Prop} :
    Spec Φ Q past (call i) ↔ Φ past i ∧ ∀ r, Q (⟨i, r⟩ :: past) r := Iff.rfl

/-- Sequencing: the second program starts from what the first has exchanged. -/
theorem spec_bind' {Q : Past I R → β → Prop} (p : Prog I R α) (f : α → Prog I R β) :
    Spec Φ Q past (p.bind f) ↔ Spec Φ (fun past a => Spec Φ Q past (f a)) past p := by
  induction p generalizing past with
  | ret a => exact Iff.rfl
  | act i k ih =>
    simp only [bind, spec_act]
    exact and_congr_right fun _ => forall_congr' fun r => ih r

/-- Sequencing, as `do` blocks write it. -/
@[simp] theorem spec_bind {Q : Past I R → β → Prop} (p : Prog I R α) (f : α → Prog I R β) :
    Spec Φ Q past (p >>= f) ↔ Spec Φ (fun past a => Spec Φ Q past (f a)) past p :=
  spec_bind' p f

/-- Consequence: a specification may be weakened, in what it allows and in what it promises. -/
theorem Spec.mono (h : Spec Φ Q past p) (hΦ : ∀ past i, Φ past i → Φ' past i)
    (hQ : ∀ past a, Q past a → Q' past a) :
    Spec Φ' Q' past p := by
  induction p generalizing past with
  | ret a => exact hQ _ _ h
  | act i k ih => exact ⟨hΦ _ _ h.1, fun r => ih r (h.2 r)⟩

/-- Consequence, in the postcondition only. -/
theorem Spec.post (h : Spec Φ Q past p) (hQ : ∀ past a, Q past a → Q' past a) : Spec Φ Q' past p :=
  h.mono (fun _ _ => id) hQ

/-- What every allowed request keeps holds in the end. -/
theorem Spec.keeps (h : Spec Φ Q past p) (C : Past I R → Prop) (hC : C past)
    (hstep : ∀ past i r, Φ past i → C past → C (⟨i, r⟩ :: past)) :
    Spec Φ (fun past a => C past ∧ Q past a) past p := by
  induction p generalizing past with
  | ret a => exact ⟨hC, h⟩
  | act i k ih => exact ⟨h.1, fun r => ih r (h.2 r) (hstep past i r h.1 hC)⟩

/-! ### What a program never does -/

/-- Every request of a program meets `p`, whatever it was answered before. -/
def Only (p : I → Prop) : Prog I R α → Prop
  | ret _ => True
  | act i k => p i ∧ ∀ r, Only p (k r)

namespace Only

variable {p : I → Prop}

theorem pure (a : α) : Only p (pure a : Prog I R α) := trivial

theorem call (h : p i) : Only p (call i : Prog I R (R i)) := ⟨h, fun _ => trivial⟩

theorem bind {f : α → Prog I R β} (hq : Only p q) (hf : ∀ a, Only p (f a)) :
    Only p (q >>= f) := by
  induction q with
  | ret a => exact hf a
  | act i k ih => exact ⟨hq.1, fun r => ih r (hq.2 r)⟩

theorem mono {p' : I → Prop} (h : Only p q) (hp : ∀ i, p i → p' i) : Only p' q := by
  induction q with
  | ret a => trivial
  | act i k ih => exact ⟨hp i h.1, fun r => ih r (h.2 r)⟩

/-- A program that only makes requests that are allowed meanwhile, and that do not disturb the
postcondition. -/
theorem spec {Q : Past I R → α → Prop} (h : Only p q) (C : Past I R → Prop) (hC : C past)
    (hstep : ∀ past i, C past → p i → Φ past i ∧ ∀ r, C (⟨i, r⟩ :: past))
    (hQ : ∀ past a, C past → Q past a) : Spec Φ Q past q := by
  induction q generalizing past with
  | ret a => exact hQ past a hC
  | act i k ih =>
    obtain ⟨hi, hnext⟩ := hstep past i hC h.1
    exact ⟨hi, fun r => ih r (h.2 r) (hnext r)⟩

end Only

/-! ### What a program is bound to do -/

/-- Whatever answers it gets, the program makes a request that meets `p` before it ends. -/
def Inevitable (p : I → Prop) : Prog I R α → Prop
  | ret _ => False
  | act i k => p i ∨ ∀ r, Inevitable p (k r)

/-- A program whose postcondition says that a request was made is bound to make it. -/
theorem Spec.inevitable {p : I → Prop} (h : Spec Φ Q past q) (hno : ∀ x ∈ past, ¬ p x.1)
    (hQ : ∀ past' a, past <:+ past' → Q past' a → ∃ x ∈ past', p x.1) : Inevitable p q := by
  induction q generalizing past with
  | ret a =>
    obtain ⟨x, hx, hp⟩ := hQ past a (List.suffix_refl _) h
    exact hno x hx hp
  | act i k ih =>
    by_cases hi : p i
    · exact .inl hi
    · refine .inr fun r => ih r (h.2 r) ?_ fun past' a hs => hQ past' a ?_
      · rintro x hx
        rcases List.mem_cons.mp hx with rfl | hx
        · exact hi
        · exact hno x hx
      · exact (List.suffix_cons _ _).trans hs

/-- The same, if it is never answered `no`. -/
def InevitableUnless (no : (Σ i, R i) → Prop) (p : I → Prop) : Prog I R α → Prop
  | ret _ => False
  | act i k => p i ∨ ∀ r, no ⟨i, r⟩ ∨ InevitableUnless no p (k r)

/-- A program that has to leave `O` before it ends, and leaves it by nothing but a request that
meets `p` or an answer `no`, is bound to make such a request. -/
theorem Spec.inevitableUnless {no : (Σ i, R i) → Prop} {p : I → Prop} (h : Spec Φ Q past q)
    (O : Past I R → Prop) (hO : O past)
    (hstep : ∀ past x, O past → ¬ p x.1 → ¬ no x → O (x :: past))
    (hQ : ∀ past a, Q past a → ¬ O past) : InevitableUnless no p q := by
  induction q generalizing past with
  | ret a => exact hQ past a h hO
  | act i k ih =>
    by_cases hi : p i
    · exact .inl hi
    · refine .inr fun r => ?_
      by_cases hr : no ⟨i, r⟩
      · exact .inl hr
      · exact .inr (ih r (h.2 r) (hstep past ⟨i, r⟩ hO hi hr))

end Prog

end Jarvis.Interleave
