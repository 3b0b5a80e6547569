import Mathlib.Data.List.Induction

/-!
# Hash chains

A chain of entries, each hashed together with the hash of the one before. The last hash determines
the whole chain of a given length, as long as no two of the hashes computed along two chains, at one
place, collide: from the end backwards, equal hashes were computed from equal entries and equal
hashes before them.
-/

namespace Jarvis.HashChain

variable {P E : Type*} {H : P → E → P} {p : P}

/-- No two hashes computed at one place of two chains from `p` collide. -/
def NoCollision (H : P → E → P) (p : P) (es es' : List E) : Prop :=
  ∀ l e l' e', l ++ [e] <+: es → l' ++ [e'] <+: es' → l.length = l'.length →
    H (l.foldl H p) e = H (l'.foldl H p) e' → l.foldl H p = l'.foldl H p ∧ e = e'

theorem NoCollision.of_prefix (h : NoCollision H p es es') (hl : l <+: es) (hl' : l' <+: es') :
    NoCollision H p l l' :=
  fun _ _ _ _ hp hp' => h _ _ _ _ (hp.trans hl) (hp'.trans hl')

/-- The last hash determines the chain. -/
theorem eq_of_foldl_eq :
    ∀ {es' : List E}, NoCollision H p es es' → es.length = es'.length →
      es.foldl H p = es'.foldl H p → es = es' := by
  induction es using List.reverseRecOn with
  | nil =>
    intro es' _ hlen _
    exact (List.length_eq_zero_iff.mp hlen.symm).symm
  | append_singleton l e ih =>
    intro es' hno hlen hfold
    rcases List.eq_nil_or_concat es' with rfl | ⟨l', e', rfl⟩
    · simp at hlen
    · rw [List.concat_eq_append] at *
      have hll : l.length = l'.length := by simpa using hlen
      simp only [List.foldl_append, List.foldl_cons, List.foldl_nil] at hfold
      obtain ⟨hl, rfl⟩ := hno l e l' e' List.prefix_rfl List.prefix_rfl hll hfold
      rw [ih (hno.of_prefix (List.prefix_append _ _) (List.prefix_append _ _)) hll hl]

end Jarvis.HashChain
