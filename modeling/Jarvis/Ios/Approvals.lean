import Mathlib.Data.Bool.AllAny
import Jarvis.Quoting
import Jarvis.Device.Approval

/-!
# The iOS app: a command that waits for approval

What the approver reads before they sign. Source:
`apps/ios/JarvisKit/Sources/JarvisKit/Approvals/ApprovalRequest.swift`. A text is its Unicode
scalars; their general categories and the decoding of the payload are parameters, and
`replacingOccurrences` is taken to replace every quote.
-/

namespace Jarvis.Ios

/-! ### Source -/

/-- `Unicode.GeneralCategory`, with the categories that the code does not name in one. -/
inductive GeneralCategory where
  | control
  | format
  | lineSeparator
  | paragraphSeparator
  | privateUse
  | surrogate
  | unassigned
  | spaceSeparator
  | other
  deriving DecidableEq, Repr

/-- `String(scalar.value, radix: 16, uppercase: true)` -/
def hexUpper (n : ℕ) : List Char := (Nat.toDigits 16 n).map Char.toUpper

def escape (c : Char) : List Char := "\\u\x7b".toList ++ hexUpper c.toNat ++ "\x7d".toList

def plain (c : Char) : Bool :=
  "abcdefghijklmnopqrstuvwxyzABCDEFGHIJKLMNOPQRSTUVWXYZ0123456789-_./=:,+@%".toList.contains c

section

variable (category : Char → GeneralCategory)

/-- The cases of `visible` that write an escape. -/
def escaped (c : Char) : Bool :=
  match category c with
  | .control | .format | .lineSeparator | .paragraphSeparator | .privateUse | .surrogate |
    .unassigned => true
  | .spaceSeparator => c ≠ ' '
  | .other => false

/-- Source: `visible` -/
def visible (text : String) : String :=
  String.ofList (text.toList.flatMap fun scalar =>
    if escaped category scalar then escape scalar else [scalar])

/-- Source: `quoted` -/
def quoted (word : String) : String :=
  let shown := visible category word
  if shown ≠ "" ∧ shown = word ∧ word.toList.all plain = true then word
  else "'" ++ String.ofList (Quoting.replaceQuotes shown.toList) ++ "'"

end

/-- What the server lists of an approval. Source: `Approval` -/
structure Approval where
  approvalID : String
  payload : Bytes
  deriving DecidableEq, Repr

/-- A request whose payload was decoded: its program is not empty. Source: `ApprovalRequest` -/
structure ApprovalRequest where
  approval : Approval
  payload : Device.ApprovalPayload
  named : payload.program ≠ ""

namespace ApprovalRequest

def words (request : ApprovalRequest) : List String :=
  request.payload.program :: request.payload.args

/-- Source: `commandLine` -/
def commandLine (category : Char → GeneralCategory) (request : ApprovalRequest) : String :=
  " ".intercalate (request.words.map (quoted category))

end ApprovalRequest

/-- Enough of the categories for what follows. -/
def fewCategories : Char → GeneralCategory
  | ' ' => .spaceSeparator
  | '\u202e' => .format
  | c => if c < ' ' then .control else .other

def echo (arg : String) : ApprovalRequest where
  approval := ⟨"appr-1", []⟩
  payload := ⟨"appr-1", "mac", "/bin/echo", [arg], "/", some 60000000000, none, 0, 0⟩
  named := (by decide : "/bin/echo" ≠ "")

/-! ### The characters of an escape -/

/-- A visible ASCII character other than the blank. -/
def Graphic (c : Char) : Prop := ' ' < c ∧ c < '\x7f'

instance : DecidablePred Graphic := fun _ => inferInstanceAs (Decidable (_ ∧ _))

theorem graphic_toDigitsCore (h : ∀ c ∈ ds, Graphic c.toUpper) :
    ∀ c ∈ Nat.toDigitsCore 16 fuel n ds, Graphic c.toUpper := by
  have hdigit : ∀ d < 16, Graphic (Nat.digitChar d).toUpper := by decide
  induction fuel generalizing n ds with
  | zero => exact h
  | succ fuel ih =>
    have hcons : ∀ c ∈ Nat.digitChar (n % 16) :: ds, Graphic c.toUpper :=
      List.forall_mem_cons.mpr ⟨hdigit _ (Nat.mod_lt n (by decide)), h⟩
    rw [Nat.toDigitsCore]
    split_ifs
    · exact hcons
    · exact ih hcons

theorem graphic_of_mem_escape (h : d ∈ escape c) : Graphic d := by
  have hopen : ∀ d ∈ "\\u\x7b".toList, Graphic d := List.all_iff_forall_prop.mp (by decide)
  have hclose : ∀ d ∈ "\x7d".toList, Graphic d := List.all_iff_forall_prop.mp (by decide)
  unfold escape at h
  rcases List.mem_append.mp h with h | h
  · rcases List.mem_append.mp h with h | h
    · exact hopen d h
    · obtain ⟨e, he, rfl⟩ := List.mem_map.mp h
      exact graphic_toDigitsCore (by simp) e he
  · exact hclose d h

theorem backslash_mem_escape (c : Char) : '\\' ∈ escape c := by
  unfold escape
  simp

theorem length_escape (c : Char) : 1 < (escape c).length := by
  unfold escape
  simp only [List.length_append]
  have : "\\u\x7b".toList.length = 3 := by decide
  omega

/-! ### What is made visible -/

section

variable {category : Char → GeneralCategory}

theorem escaped_of_graphic (hascii : ∀ c, Graphic c → category c = .other) (h : Graphic c) :
    escaped category c = false := by
  rw [escaped, hascii c h]

theorem toList_visible (text : String) : (visible category text).toList =
    text.toList.flatMap fun c => if escaped category c then escape c else [c] :=
  String.toList_ofList

/-- The part of a text that `visible` writes as it is. -/
theorem flatMap_eq_self {cs : List Char} (h : ∀ c ∈ cs, escaped category c = false) :
    (cs.flatMap fun c => if escaped category c then escape c else [c]) = cs := by
  induction cs with
  | nil => rfl
  | cons c cs ih =>
    rw [List.flatMap_cons, ih fun d hd => h d (List.mem_cons_of_mem _ hd), h c List.mem_cons_self]
    rfl

theorem visible_eq_self {text : String} (h : ∀ c ∈ text.toList, escaped category c = false) :
    visible category text = text := by
  rw [← String.toList_inj, toList_visible, flatMap_eq_self h]

/-- A text in which something is escaped shows the escape. -/
theorem visible_cases (text : String) :
    visible category text = text ∨
      ∃ c, escaped category c = true ∧ escape c <:+: (visible category text).toList := by
  by_cases h : ∀ c ∈ text.toList, escaped category c = false
  · exact .inl (visible_eq_self h)
  · simp only [not_forall, Bool.not_eq_false] at h
    obtain ⟨c, hmem, hc⟩ := h
    obtain ⟨before, after, heq⟩ := List.append_of_mem hmem
    refine .inr ⟨c, hc, ?_⟩
    rw [toList_visible, heq, List.flatMap_append, List.flatMap_cons, if_pos hc]
    exact ⟨_, _, List.append_assoc _ _ _⟩

/-- **A word is made visible, and then quoted.** -/
theorem quoted_eq (word : String) :
    (quoted category word).toList = Quoting.quote plain (visible category word).toList := by
  unfold quoted Quoting.quote
  dsimp only
  have hnil : visible category word ≠ "" ↔ (visible category word).toList ≠ [] := by simp
  by_cases h : visible category word ≠ "" ∧ visible category word = word ∧
    word.toList.all plain = true
  · rw [if_pos h, h.2.1, if_pos ⟨by rw [← h.2.1]; exact hnil.mp h.1, h.2.2⟩]
  · rw [if_neg h, if_neg]
    · simp
    · -- A text of plain characters shows no escape, so nothing in it was escaped.
      rintro ⟨hne, hall⟩
      refine h ⟨hnil.mpr hne, ?_⟩
      have hsame : visible category word = word := by
        rcases visible_cases word with hsame | ⟨c, -, hwithin⟩
        · exact hsame
        · have := List.all_eq_true.mp hall _ (hwithin.subset (backslash_mem_escape c))
          exact absurd this (by decide)
      exact ⟨hsame, hsame ▸ hall⟩

/-- What is shown of two requests is the same if their words are made visible in the same way. -/
theorem commandLine_eq_iff {request request' : ApprovalRequest} :
    request.commandLine category = request'.commandLine category ↔
      request.words.map (visible category) = request'.words.map (visible category) := by
  have hshown : ∀ r : ApprovalRequest, (r.commandLine category).toList =
      Quoting.joinWords plain ((r.words.map (visible category)).map String.toList) := by
    intro r
    simp only [ApprovalRequest.commandLine, String.toList_intercalate, Quoting.joinWords,
      List.map_map, Function.comp_def, quoted_eq]
    rfl
  rw [← String.toList_inj, hshown, hshown]
  constructor
  · intro h
    have hwords := Quoting.joinWords_injective (by decide) (by decide) h
    exact (List.map_inj_right fun _ _ => String.toList_injective).mp hwords
  · intro h
    rw [h]

variable (category) in
/-- No character of the word is shown as an escape, and no escape is written out in it. -/
def Unmistakable (word : String) : Prop :=
  (∀ c ∈ word.toList, escaped category c = false) ∧
    ∀ c, escaped category c = true → ¬ escape c <:+: word.toList

/-- A character that is escaped, and its escape, are shown alike. -/
theorem visible_escape (hascii : ∀ c, Graphic c → category c = .other)
    (hc : escaped category c = true) (before after : List Char) :
    visible category (String.ofList (before ++ c :: after)) =
      visible category (String.ofList (before ++ escape c ++ after)) := by
  have hescape : ((escape c).flatMap fun c => if escaped category c then escape c else [c]) =
      escape c :=
    flatMap_eq_self fun d hd => escaped_of_graphic hascii (graphic_of_mem_escape hd)
  rw [← String.toList_inj, toList_visible, toList_visible]
  simp only [String.toList_ofList, List.flatMap_append, List.flatMap_cons, hescape, if_pos hc,
    List.append_assoc]

theorem escape_ne (c : Char) (before after : List Char) :
    String.ofList (before ++ c :: after) ≠ String.ofList (before ++ escape c ++ after) := by
  intro h
  have hlen := congrArg (fun s => s.toList.length) h
  simp only [String.toList_ofList, List.length_append, List.length_cons] at hlen
  have := length_escape c
  omega

variable {word : String}

/-- **Which words are made visible as no other is.** A word with a character that is shown as an
escape, and the word with that escape written out, are not told apart. -/
theorem visible_eq_iff (hascii : ∀ c, Graphic c → category c = .other) :
    (∀ word', visible category word = visible category word' → word = word') ↔
    Unmistakable category word := by
  constructor
  · intro hall
    refine ⟨fun c hmem => ?_, ?_⟩
    · by_contra hc
      rw [Bool.not_eq_false] at hc
      obtain ⟨before, after, heq⟩ := List.append_of_mem hmem
      have hword : word = String.ofList (before ++ c :: after) := by
        rw [← heq, String.ofList_toList]
      rw [hword] at hall
      exact escape_ne c before after (hall _ (visible_escape hascii hc before after))
    · rintro c hc ⟨before, after, heq⟩
      have hword : word = String.ofList (before ++ escape c ++ after) := by
        rw [heq, String.ofList_toList]
      rw [hword] at hall
      exact escape_ne c before after (hall _ (visible_escape hascii hc before after).symm).symm
  · rintro ⟨hnone, hliteral⟩ word' heq
    rw [visible_eq_self hnone] at heq
    rcases visible_cases word' with hsame | ⟨c, hc, hwithin⟩
    · rw [heq, hsame]
    · rw [← heq] at hwithin
      exact absurd hwithin (hliteral c hc)

/-! ### What is shown of a request -/

/-- Only the empty word is shown as such. -/
theorem visible_eq_empty (h : visible category word = "") : word = "" := by
  rcases visible_cases word with hsame | ⟨c, -, hwithin⟩
  · rw [← hsame, h]
  · rw [h] at hwithin
    exact absurd (hwithin.subset (backslash_mem_escape c)) (by simp)

/-- The request for other words. -/
def ApprovalRequest.withWords (request : ApprovalRequest) (program : String) (args : List String)
    (h : program ≠ "") : ApprovalRequest :=
  ⟨request.approval, { request.payload with program, args }, h⟩

/-- A word that is made visible as another one can be put in its place. -/
theorem exists_replaced {request : ApprovalRequest} {word' : String} (hmem : word ∈ request.words)
    (hne : word ≠ word') (hvisible : visible category word = visible category word') :
    ∃ request' : ApprovalRequest, request.words ≠ request'.words ∧
      request.words.map (visible category) = request'.words.map (visible category) := by
  rcases List.mem_cons.mp hmem with rfl | harg
  · have hnamed : word' ≠ "" := by
      rintro rfl
      exact request.named (visible_eq_empty hvisible)
    refine ⟨request.withWords word' request.payload.args hnamed, ?_, ?_⟩
    · exact fun h => hne (List.cons.inj h).1
    · exact congrArg (· :: _) hvisible
  · obtain ⟨before, after, heq⟩ := List.append_of_mem harg
    refine ⟨request.withWords request.payload.program (before ++ word' :: after) request.named,
      ?_, ?_⟩
    · intro h
      have hargs : before ++ word :: after = before ++ word' :: after := heq ▸ (List.cons.inj h).2
      exact hne (List.cons.inj (List.append_cancel_left hargs)).1
    · simp [ApprovalRequest.words, ApprovalRequest.withWords, heq, hvisible]

/-- **Which commands can be told from every other on the screen**: those none of whose words has a
character that is shown as an escape, or such an escape written out. -/
theorem commandLine_determines_iff (hascii : ∀ c, Graphic c → category c = .other)
    (request : ApprovalRequest) :
    (∀ request' : ApprovalRequest, request.words ≠ request'.words →
        request.commandLine category ≠ request'.commandLine category) ↔
      ∀ word ∈ request.words, Unmistakable category word := by
  constructor
  · intro hall word hmem
    rw [← visible_eq_iff hascii]
    intro word' hvisible
    by_contra hne
    obtain ⟨request', hwords, hshown⟩ := exists_replaced hmem hne hvisible
    exact hall request' hwords (commandLine_eq_iff.mpr hshown)
  · intro hwords request' hne heq
    apply hne
    have hshown := commandLine_eq_iff.mp heq
    refine List.ext_getElem (by simpa using congrArg List.length hshown) fun n h₁ h₂ => ?_
    refine (visible_eq_iff hascii).mpr (hwords _ (List.getElem_mem h₁)) _ ?_
    have hn := List.getElem_of_eq hshown (by simpa using h₁)
    simpa only [List.getElem_map] using hn

end

/-- A command of plain words. -/
theorem commandLine_determines_echo :
    (∀ request' : ApprovalRequest, (echo "ok").words ≠ request'.words →
      (echo "ok").commandLine fewCategories ≠ request'.commandLine fewCategories) ↔
      ∀ word ∈ (echo "ok").words, Unmistakable fewCategories word := by
  refine commandLine_determines_iff (fun c hc => ?_) (echo "ok")
  unfold fewCategories
  split
  · exact absurd hc (by decide)
  · exact absurd hc (by decide)
  · exact if_neg fun h => UInt32.lt_asymm hc.1 h

/-- The character that reverses the text on the screen, and its escape written out. -/
theorem disguised :
    (echo "safe\u202etxt.sh").words ≠ (echo "safe\\u\x7b202E\x7dtxt.sh").words ∧
      (echo "safe\u202etxt.sh").commandLine fewCategories =
        (echo "safe\\u\x7b202E\x7dtxt.sh").commandLine fewCategories := by
  decide +kernel

end Jarvis.Ios
