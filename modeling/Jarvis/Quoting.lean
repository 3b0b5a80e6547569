import Jarvis.Encoding

/-!
# Words of a command, quoted

A command is shown as its words with a blank between them. A word of plain characters stands as it
is; any other is put between quotes, and the quotes in it are written `'\''`: the quotes are closed,
an escaped one follows, and they are opened again.
-/

namespace Jarvis.Quoting

open Encoding

/-- The quotes in a word, closed and opened again. -/
def replaceQuotes (w : List Char) : List Char :=
  w.flatMap fun c => if c = '\'' then ['\'', '\\', '\'', '\''] else [c]

/-- A word as it is shown. -/
def quote (plain : Char → Bool) (w : List Char) : List Char :=
  if w ≠ [] ∧ w.all plain = true then w else '\'' :: replaceQuotes w ++ ['\'']

/-- The words as they are shown. -/
def joinWords (plain : Char → Bool) (ws : List (List Char)) : List Char :=
  [' '].intercalate (ws.map (quote plain))

theorem replaceQuotes_quote (w : List Char) :
    replaceQuotes ('\'' :: w) = '\'' :: '\\' :: '\'' :: '\'' :: replaceQuotes w := by
  simp [replaceQuotes]

theorem replaceQuotes_cons (h : c ≠ '\'') (w : List Char) :
    replaceQuotes (c :: w) = c :: replaceQuotes w := by
  simp [replaceQuotes, h]

/-- A quoted word ends at the first quote before a blank. -/
theorem delimited_replaceQuotes : Delimited Set.univ fun w => replaceQuotes w ++ ['\'', ' '] := by
  intro a _
  induction a with
  | nil =>
    intro b _ r r' heq
    dsimp only at heq
    cases b with
    | nil => exact ⟨rfl, by simpa [replaceQuotes] using heq⟩
    | cons y b =>
      by_cases hy : y = '\''
      · subst hy
        rw [replaceQuotes_quote] at heq
        simp [replaceQuotes] at heq
      · rw [replaceQuotes_cons hy] at heq
        simp [replaceQuotes, Ne.symm hy] at heq
  | cons x a ih =>
    intro b _ r r' heq
    dsimp only at heq ih
    by_cases hx : x = '\''
    · subst hx
      rw [replaceQuotes_quote] at heq
      cases b with
      | nil => simp [replaceQuotes] at heq
      | cons y b =>
        by_cases hy : y = '\''
        · subst hy
          rw [replaceQuotes_quote] at heq
          simp only [List.cons_append, List.cons.injEq, true_and] at heq
          obtain ⟨rfl, hr⟩ := ih trivial trivial heq
          exact ⟨rfl, hr⟩
        · rw [replaceQuotes_cons hy] at heq
          simp [Ne.symm hy] at heq
    · rw [replaceQuotes_cons hx] at heq
      cases b with
      | nil => simp [replaceQuotes, hx] at heq
      | cons y b =>
        by_cases hy : y = '\''
        · subst hy
          rw [replaceQuotes_quote] at heq
          simp [hx] at heq
        · rw [replaceQuotes_cons hy] at heq
          simp only [List.cons_append, List.cons.injEq] at heq
          obtain ⟨rfl, heq⟩ := heq
          obtain ⟨rfl, hr⟩ := ih trivial trivial heq
          exact ⟨rfl, hr⟩

section

variable {plain : Char → Bool}

variable {w : List Char} {ws : List (List Char)}

theorem quote_plain (h : w ≠ [] ∧ w.all plain = true) : quote plain w = w := if_pos h

theorem quote_other (h : ¬ (w ≠ [] ∧ w.all plain = true)) :
    quote plain w = '\'' :: replaceQuotes w ++ ['\''] := if_neg h

theorem quote_ne_nil (w : List Char) : quote plain w ≠ [] := by
  unfold quote
  split_ifs with h
  · exact h.1
  · exact List.cons_ne_nil _ _

/-- **A word that is followed by a blank** can be read in one way. -/
theorem delimited_quote (hblank : plain ' ' = false) (hquote : plain '\'' = false) :
    Delimited Set.univ fun w => quote plain w ++ [' '] := by
  -- A plain word neither begins with a quote nor holds a blank.
  have hhead : ∀ {w r r' : List Char}, w ≠ [] ∧ w.all plain = true → w ++ r ≠ '\'' :: r' := by
    rintro w r r' ⟨hne, hall⟩ heq
    obtain ⟨c, w, rfl⟩ := List.exists_cons_of_ne_nil hne
    have hc : plain c = true := List.all_eq_true.mp hall c List.mem_cons_self
    rw [(List.cons.inj heq).1, hquote] at hc
    cases hc
  have hmem : ∀ {w : List Char}, w.all plain = true → ' ' ∉ w := by
    intro w hall hmem
    have := List.all_eq_true.mp hall ' ' hmem
    rw [hblank] at this
    cases this
  intro a _ b _ r r' heq
  dsimp only at heq
  by_cases ha : a ≠ [] ∧ a.all plain = true
  · by_cases hb : b ≠ [] ∧ b.all plain = true
    · rw [quote_plain ha, quote_plain hb] at heq
      exact delimited_terminated ' ' (hmem ha.2) (hmem hb.2) heq
    · rw [quote_plain ha, quote_other hb, List.append_assoc] at heq
      exact absurd heq (hhead ha)
  · by_cases hb : b ≠ [] ∧ b.all plain = true
    · rw [quote_other ha, quote_plain hb, List.append_assoc b] at heq
      exact absurd heq.symm (hhead hb)
    · rw [quote_other ha, quote_other hb] at heq
      simp only [List.cons_append, List.append_assoc, List.cons.injEq, true_and] at heq
      exact delimited_replaceQuotes trivial trivial (by simpa using heq)

/-- A blank after each word, the last one too. -/
theorem joinWords_append (h : ws ≠ []) :
    joinWords plain ws ++ [' '] = ws.flatMap fun w => quote plain w ++ [' '] := by
  induction ws with
  | nil => exact absurd rfl h
  | cons w ws ih =>
    cases ws with
    | nil => simp [joinWords, List.intercalate]
    | cons w' ws =>
      have hrest := ih (List.cons_ne_nil _ _)
      rw [List.flatMap_cons, ← hrest]
      simp [joinWords, List.intercalate]

theorem joinWords_ne_nil (h : ws ≠ []) : joinWords plain ws ≠ [] := by
  obtain ⟨w, ws, rfl⟩ := List.exists_cons_of_ne_nil h
  cases ws with
  | nil =>
    simp only [joinWords, List.intercalate, List.map_cons, List.map_nil, List.intersperse,
      List.flatten_cons, List.flatten_nil, List.append_nil]
    exact quote_ne_nil w
  | cons w' ws => simp [joinWords, List.intercalate, quote_ne_nil]

/-- **No two lists of words are shown in the same way.** -/
theorem joinWords_injective (hblank : plain ' ' = false) (hquote : plain '\'' = false) :
    Function.Injective (joinWords plain) := by
  intro ws ws' heq
  by_cases h : ws = []
  · by_cases h' : ws' = []
    · rw [h, h']
    · rw [h] at heq
      exact absurd heq.symm (joinWords_ne_nil h')
  · by_cases h' : ws' = []
    · rw [h'] at heq
      exact absurd heq (joinWords_ne_nil h)
    · have hflat := congrArg (· ++ [' ']) heq
      simp only [joinWords_append h, joinWords_append h'] at hflat
      refine (delimited_quote hblank hquote).flatMap_injective ?_ (fun _ _ => trivial)
        (fun _ _ => trivial) hflat
      exact fun w _ hnil => List.cons_ne_nil _ _ (List.append_eq_nil_iff.mp hnil).2

end

end Jarvis.Quoting
