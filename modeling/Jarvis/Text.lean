import Mathlib.Data.List.DropRight

/-!
# Texts of Python

A text is a list of code points, lone surrogates included; only texts without them can be encoded.
The tables of Unicode that a program asks for are a parameter (`Unicode`), apart from the few
characters that `strip` and the category `Cc` are about.
-/

namespace Jarvis

/-- A text: its code points. -/
abbrev Text := List ℕ

instance instLawfulBEqText : LawfulBEq Text := inferInstance

namespace Text

def ofString (s : String) : Text := s.toList.map Char.toNat

/-- What a program asks Unicode for. -/
structure Unicode where
  casefold : Text → Text
  nfkd : Text → Text
  nfkc : Text → Text
  combining : ℕ → Bool
  /-- Whether `\w` matches. -/
  isWord : ℕ → Bool
  repr : Text → Text

/-- The category `Cc`. -/
def isControl (c : ℕ) : Bool := c < 0x20 || (0x7f ≤ c && c < 0xa0)

def isSpace (c : ℕ) : Bool :=
  (0x09 ≤ c && c ≤ 0x0d) || (0x1c ≤ c && c ≤ 0x20) || c = 0x85 || c = 0xa0 || c = 0x1680 ||
    (0x2000 ≤ c && c ≤ 0x200a) || c = 0x2028 || c = 0x2029 || c = 0x202f || c = 0x205f || c = 0x3000

/-- `str.strip` -/
def strip (s : Text) : Text := (s.dropWhile isSpace).rdropWhile isSpace

/-- `re.findall` of the pattern `\w+` -/
def words (isWord : ℕ → Bool) (s : Text) : List Text :=
  (s.splitOnP fun c => !isWord c).filter (· ≠ [])

/-- A pattern that ends with `$`: a newline may follow. -/
def matchesDollar (p : Text → Bool) (s : Text) : Bool :=
  p s || (s.getLast? = some 0x0a && p s.dropLast)

/-- The pattern `[first][rest]{0,n}` -/
def isName (first rest : ℕ → Bool) (n : ℕ) : Text → Bool
  | [] => false
  | c :: cs => first c && decide (cs.length ≤ n) && cs.all rest

def isUpper (c : ℕ) : Bool := 0x41 ≤ c && c ≤ 0x5a

def isLower (c : ℕ) : Bool := 0x61 ≤ c && c ≤ 0x7a

def isDigit (c : ℕ) : Bool := 0x30 ≤ c && c ≤ 0x39

/-! ### Words -/

section

variable {isWord : ℕ → Bool} {s : Text}

/-- What is between separators. -/
theorem of_mem_splitOnP {p : ℕ → Bool} : ∀ {s : Text},
    ∃ first rest, s.splitOnP p = first :: rest ∧ first <+: s ∧
      ∀ w ∈ first :: rest, w <:+: s ∧ ∀ c ∈ w, p c = false := by
  intro s
  induction s with
  | nil => exact ⟨[], [], rfl, List.prefix_rfl, by simp⟩
  | cons c s ih =>
    obtain ⟨first, rest, hsplit, hfirst, hall⟩ := ih
    obtain ⟨hhead, htail⟩ := List.forall_mem_cons.mp hall
    have hlater : ∀ w ∈ rest, w <:+: c :: s ∧ ∀ d ∈ w, p d = false := fun w hw =>
      ⟨(htail w hw).1.trans (List.suffix_cons c s).isInfix, (htail w hw).2⟩
    rw [List.splitOnP_cons_eq_if_modifyHead, hsplit]
    split_ifs with hc
    · refine ⟨[], first :: rest, rfl, ⟨c :: s, rfl⟩, ?_⟩
      refine List.forall_mem_cons.mpr ⟨by simp, List.forall_mem_cons.mpr ⟨?_, hlater⟩⟩
      exact ⟨hhead.1.trans (List.suffix_cons c s).isInfix, hhead.2⟩
    · have hcons : c :: first <+: c :: s := (List.prefix_cons_inj c).mpr hfirst
      refine ⟨c :: first, rest, rfl, hcons, List.forall_mem_cons.mpr ⟨⟨hcons.isInfix, ?_⟩, hlater⟩⟩
      exact List.forall_mem_cons.mpr ⟨by simpa using hc, hhead.2⟩

/-- A word is a part of the text, has something in it, and only what words have. -/
theorem of_mem_words (h : w ∈ words isWord s) :
    w <:+: s ∧ w ≠ [] ∧ ∀ c ∈ w, isWord c = true := by
  obtain ⟨hw, hne⟩ := List.mem_filter.mp h
  obtain ⟨first, rest, hsplit, -, hall⟩ := @of_mem_splitOnP (fun c => !isWord c) s
  rw [hsplit] at hw
  obtain ⟨hinside, hword⟩ := hall w hw
  exact ⟨hinside, by simpa using hne, fun c hc => by simpa using hword c hc⟩

/-- Words that are joined with spaces are the words of the result. -/
theorem words_join (hspace : isWord 0x20 = false) : ∀ {ws : List Text},
    (∀ w ∈ ws, w ≠ [] ∧ ∀ c ∈ w, isWord c = true) → words isWord ([0x20].intercalate ws) = ws := by
  intro ws
  induction ws with
  | nil =>
    intro _
    rfl
  | cons w ws ih =>
    intro h
    obtain ⟨⟨hne, hword⟩, hws⟩ := List.forall_mem_cons.mp h
    have hnot : ∀ c ∈ w, (!isWord c) = false := fun c hc => by simp [hword c hc]
    cases ws with
    | nil =>
      rw [List.intercalate_singleton, words, List.splitOnP_eq_singleton hnot]
      simp [hne]
    | cons v vs =>
      have hrest := ih hws
      unfold words at hrest ⊢
      rw [List.intercalate_cons_cons, List.append_assoc, List.singleton_append,
        List.splitOnP_append_cons_of_forall_mem hnot 0x20 (by simp [hspace]),
          List.filter_cons, hrest]
      simp [hne]

/-- Every character of a word is in one of the words. -/
theorem mem_join_of_isWord (hc : c ∈ s) (hword : isWord c = true) :
    ∃ w ∈ words isWord s, c ∈ w := by
  suffices h : ∃ w ∈ s.splitOnP fun c => !isWord c, c ∈ w by
    obtain ⟨w, hw, hcw⟩ := h
    refine ⟨w, List.mem_filter.mpr ⟨hw, ?_⟩, hcw⟩
    simpa using List.ne_nil_of_mem hcw
  induction s with
  | nil => simp at hc
  | cons d s ih =>
    obtain ⟨first, rest, hsplit, -, -⟩ := @of_mem_splitOnP (fun c => !isWord c) s
    rw [List.splitOnP_cons_eq_if_modifyHead, hsplit]
    rw [hsplit] at ih
    rcases List.mem_cons.mp hc with rfl | hc
    · rw [if_neg (by simp [hword])]
      exact ⟨c :: first, by simp, by simp⟩
    · obtain ⟨w, hw, hcw⟩ := ih hc
      split_ifs
      · exact ⟨w, List.mem_cons_of_mem _ hw, hcw⟩
      · rcases List.mem_cons.mp hw with rfl | hw
        · exact ⟨d :: w, by simp, by simp [hcw]⟩
        · exact ⟨w, by simp [hw], hcw⟩

end

end Text

end Jarvis
