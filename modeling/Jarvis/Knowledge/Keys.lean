import Jarvis.Knowledge.Service

/-!
# The knowledge service: keys of entities

Whether an entity that is stored can be asked for by its key. `UpsertKnowledge` makes the key with
`entityKey`, `GetEntity` and `DeleteEntity` take it with `parseKey`, which normalizes it again.
-/

namespace Jarvis.Knowledge

open Text (ofString words isName matchesDollar isUpper isLower isDigit)

/-! ### Unicode -/

/-- The text without its combining marks. -/
def unmarked (U : Text.Unicode) (t : Text) : Text := t.filter fun c => !U.combining c

/-- The text whose words are the normalized ones. -/
def bare (U : Text.Unicode) (t : Text) : Text := U.nfkc (unmarked U (U.nfkd (U.casefold t)))

theorem normalize_eq (U : Text.Unicode) (t : Text) :
    normalize U t = [0x20].intercalate (words U.isWord (bare U t)) := rfl

/-- What is used of Unicode. Folding works character by character, and the normal forms keep spaces,
are the same after each other, and hold of parts of a text. -/
structure Laws (U : Text.Unicode) : Prop where
  casefold_append : ∀ a b, U.casefold (a ++ b) = U.casefold a ++ U.casefold b
  casefold_ne_nil : ∀ c, U.casefold [c] ≠ []
  casefold_space : U.casefold [0x20] = [0x20]
  nfkd_append : ∀ a b, (U.nfkd (a ++ b)).Perm (U.nfkd a ++ U.nfkd b)
  nfkd_space : U.nfkd [0x20] = [0x20]
  nfkd_nfkc : ∀ t, U.nfkd (U.nfkc t) = U.nfkd t
  nfkd_unmarked : ∀ t, U.nfkd (unmarked U (U.nfkd t)) = unmarked U (U.nfkd t)
  nfkc_nfkc : ∀ t, U.nfkc (U.nfkc t) = U.nfkc t
  nfkc_nfkd : ∀ t, U.nfkc (U.nfkd t) = U.nfkc t
  nfkc_space : ∀ a b, U.nfkc (a ++ 0x20 :: b) = U.nfkc a ++ 0x20 :: U.nfkc b
  nfkc_part : ∀ a b, U.nfkc (a ++ b) = a ++ b → U.nfkc a = a ∧ U.nfkc b = b
  combining_space : U.combining 0x20 = false
  isWord_space : U.isWord 0x20 = false
  isWord_newline : U.isWord 0x0a = false

/-- Folding leaves the letters alone that the decomposition of the folded text gives. -/
def Folded (U : Text.Unicode) (t : Text) : Prop :=
  ∀ c ∈ bare U t, U.isWord c = true → U.casefold [c] = [c]

/-- In NFKC, and without marks when it is decomposed. -/
structure Unmarked (U : Text.Unicode) (t : Text) : Prop where
  nfkc : U.nfkc t = t
  marks : ∀ c ∈ U.nfkd t, U.combining c = false

section

variable {U : Text.Unicode} {t : Text}

section

variable (hU : Laws U)
include hU

theorem Laws.casefold_nil : U.casefold [] = [] := by
  have hlen := congrArg List.length (hU.casefold_append [] [])
  rw [List.append_nil, List.length_append] at hlen
  exact List.eq_nil_of_length_eq_zero (by omega)

theorem Laws.casefold_cons (c : ℕ) : U.casefold (c :: t) = U.casefold [c] ++ U.casefold t :=
  hU.casefold_append [c] t

theorem Laws.casefold_eq (h : ∀ c ∈ t, U.casefold [c] = [c]) : U.casefold t = t := by
  induction t with
  | nil => exact hU.casefold_nil
  | cons c t ih =>
    obtain ⟨hc, ht⟩ := List.forall_mem_cons.mp h
    rw [hU.casefold_cons, hc, ih ht]
    rfl

theorem Laws.length_le_casefold : ∀ t : Text, t.length ≤ (U.casefold t).length := by
  intro t
  induction t with
  | nil => exact Nat.zero_le _
  | cons c t ih =>
    have hpos := List.length_pos_of_ne_nil (hU.casefold_ne_nil c)
    rw [hU.casefold_cons, List.length_append, List.length_cons]
    omega

/-- A text that folding leaves alone has only characters that it leaves alone. -/
theorem Laws.casefold_of_mem (h : U.casefold t = t) : ∀ c ∈ t, U.casefold [c] = [c] := by
  induction t with
  | nil => simp
  | cons c t ih =>
    have hlen := congrArg List.length h
    have hpos := List.length_pos_of_ne_nil (hU.casefold_ne_nil c)
    have hle := hU.length_le_casefold t
    rw [hU.casefold_cons] at h hlen
    rw [List.length_append, List.length_cons] at hlen
    have hone : (U.casefold [c]).length = [c].length := by
      rw [List.length_singleton]
      omega
    obtain ⟨hc, ht⟩ := List.append_inj (show _ = [c] ++ t from h) hone
    exact List.forall_mem_cons.mpr ⟨hc, ih ht⟩

theorem Laws.unmarked_bare (t : Text) : Unmarked U (bare U t) where
  nfkc := hU.nfkc_nfkc _
  marks := by
    intro c hc
    rw [bare, hU.nfkd_nfkc, hU.nfkd_unmarked] at hc
    simpa using (List.mem_filter.mp hc).2

theorem Unmarked.part (h : Unmarked U (a ++ b)) : Unmarked U a ∧ Unmarked U b := by
  obtain ⟨ha, hb⟩ := hU.nfkc_part a b h.nfkc
  have hperm := hU.nfkd_append a b
  refine ⟨⟨ha, fun c hc => ?_⟩, hb, fun c hc => ?_⟩
  · exact h.marks c (hperm.mem_iff.mpr (List.mem_append_left _ hc))
  · exact h.marks c (hperm.mem_iff.mpr (List.mem_append_right _ hc))

theorem Unmarked.inside (h : Unmarked U t) (hw : w <:+: t) : Unmarked U w := by
  obtain ⟨a, b, rfl⟩ := hw
  exact ((h.part hU).1.part hU).2

/-- Unmarked words stay so when they are joined. -/
theorem Unmarked.join : ∀ {ws : List Text}, ws ≠ [] → (∀ w ∈ ws, Unmarked U w) →
    Unmarked U ([0x20].intercalate ws) := by
  intro ws
  induction ws with
  | nil =>
    intro hne _
    exact (hne rfl).elim
  | cons w ws ih =>
    intro _ h
    obtain ⟨hw, hws⟩ := List.forall_mem_cons.mp h
    cases ws with
    | nil => rwa [List.intercalate_singleton]
    | cons v vs =>
      have hrest := ih (by simp) hws
      rw [List.intercalate_cons_cons, List.append_assoc, List.singleton_append]
      refine ⟨by rw [hU.nfkc_space, hw.nfkc, hrest.nfkc], fun c hc => ?_⟩
      have hspace := hU.nfkd_append [0x20] ([0x20].intercalate (v :: vs))
      rw [List.singleton_append, hU.nfkd_space] at hspace
      rw [(hU.nfkd_append w _).mem_iff, List.mem_append, hspace.mem_iff, List.mem_append] at hc
      rcases hc with hc | hc | hc
      · exact hw.marks c hc
      · rw [List.mem_singleton.mp hc]
        exact hU.combining_space
      · exact hrest.marks c hc

theorem Laws.unmarked_word : ∀ w ∈ words U.isWord (bare U t), Unmarked U w := by
  intro w hw
  exact (hU.unmarked_bare t).inside hU (Text.of_mem_words hw).1

end

variable {ws : List Text}

theorem mem_join (h : c ∈ [0x20].intercalate ws) : c = 0x20 ∨ ∃ w ∈ ws, c ∈ w := by
  induction ws with
  | nil => simp at h
  | cons w ws ih =>
    cases ws with
    | nil =>
      rw [List.intercalate_singleton] at h
      exact .inr ⟨w, by simp, h⟩
    | cons v vs =>
      rw [List.intercalate_cons_cons, List.mem_append, List.mem_append, List.mem_singleton] at h
      rcases h with (h | h) | h
      · exact .inr ⟨w, by simp, h⟩
      · exact .inl h
      · exact (ih h).imp_right fun ⟨u, hu, hc⟩ => ⟨u, List.mem_cons_of_mem _ hu, hc⟩

theorem mem_join_of_mem (hw : w ∈ ws) (hc : c ∈ w) :
    c ∈ [0x20].intercalate ws := by
  induction ws with
  | nil => simp at hw
  | cons u ws ih =>
    cases ws with
    | nil =>
      rw [List.intercalate_singleton]
      rwa [List.mem_singleton.mp hw] at hc
    | cons v vs =>
      rw [List.intercalate_cons_cons, List.mem_append, List.mem_append]
      rcases List.mem_cons.mp hw with rfl | hw
      · exact .inl (.inl hc)
      · exact .inr (ih hw)

/-- **Normalizing twice** is normalizing once, if folding leaves the letters alone. -/
theorem normalize_normalize (hU : Laws U) (hne : normalize U t ≠ []) (hfold : Folded U t) :
    normalize U (normalize U t) = normalize U t := by
  have hwords : words U.isWord (bare U t) ≠ [] := by
    intro hnil
    exact hne (by rw [normalize_eq, hnil]; rfl)
  have hfolded : U.casefold (normalize U t) = normalize U t := by
    refine hU.casefold_eq fun c hc => ?_
    rcases mem_join hc with rfl | ⟨w, hw, hcw⟩
    · exact hU.casefold_space
    · obtain ⟨hpart, -, hword⟩ := Text.of_mem_words hw
      exact hfold c (hpart.subset hcw) (hword c hcw)
  -- What is normalized stays as it is: it has no marks to lose, and it is in NFKC.
  have hclean : Unmarked U (normalize U t) := Unmarked.join hU hwords hU.unmarked_word
  have hunmarked : unmarked U (U.nfkd (normalize U t)) = U.nfkd (normalize U t) :=
    List.filter_eq_self.mpr fun c hc => by simp [hclean.marks c hc]
  have hbare : bare U (normalize U t) = normalize U t := by
    rw [bare, hfolded, hunmarked, hU.nfkc_nfkd, hclean.nfkc]
  rw [normalize_eq U (normalize U t), hbare, normalize_eq,
    Text.words_join hU.isWord_space fun w hw => (Text.of_mem_words hw).2]

/-- If folding leaves alone what normalizing does, then it leaves the letters alone. -/
theorem folded_of_normalize (hU : Laws U) (hstable : ∀ u, normalize U u = u → U.casefold u = u)
    (h : normalize U (normalize U t) = normalize U t) : Folded U t := by
  intro c hc hword
  obtain ⟨w, hw, hcw⟩ := Text.mem_join_of_isWord hc hword
  exact hU.casefold_of_mem (hstable _ h) c (mem_join_of_mem hw hcw)

end

/-! ### Keys -/

/-- The library on a few characters: ASCII, the trade mark sign, and the ligature U+FDFA with the
letters it stands for. -/
def fewCharacters : Library where
  casefold := List.map fun c => if isUpper c then c + 0x20 else c
  nfkd := List.flatMap decompose
  nfkc := List.flatMap decompose
  combining _ := false
  isWord c := isUpper c || isLower c || isDigit c || c = 0x5f || (0x0620 ≤ c && c ≤ 0x064a)
  repr t := t
  uuid _ := none
  uuidText _ := []
  uuid5 t := t
  sha256 t := t
  urlScheme _ := none
where
  decompose (c : ℕ) : Text :=
    if c = 0x2122 then [0x54, 0x4d]
    else if c = 0xfdfa then [0x635, 0x644, 0x649, 0x20, 0x627, 0x644, 0x644, 0x647, 0x20, 0x639,
      0x644, 0x64a, 0x647, 0x20, 0x648, 0x633, 0x644, 0x645]
    else [c]

/-- The library on ASCII alone. -/
def ascii : Library := { fewCharacters with nfkd := id, nfkc := id }

theorem ascii_laws : Laws ascii.toUnicode where
  casefold_append _ _ := List.map_append
  casefold_ne_nil _ := by simp [ascii, fewCharacters]
  casefold_space := by decide
  nfkd_append _ _ := .refl _
  nfkd_space := rfl
  nfkd_nfkc _ := rfl
  nfkd_unmarked _ := rfl
  nfkc_nfkc _ := rfl
  nfkc_nfkd _ := rfl
  nfkc_space _ _ := rfl
  nfkc_part _ _ _ := ⟨rfl, rfl⟩
  combining_space := rfl
  isWord_space := by decide
  isWord_newline := by decide

/-- `[A-Z][A-Za-z0-9]{0,31}` as a whole. -/
def isTypeName (t : Text) : Bool :=
  isName isUpper (fun c => isUpper c || isLower c || isDigit c) 31 t

section

variable {L : Library} {type name key : Text}

theorem of_mem_isTypeName (h : isTypeName type = true) (hc : c ∈ type) : c ≠ 0x3a ∧ c ≠ 0x0a := by
  cases type with
  | nil => simp at hc
  | cons d ds =>
    simp only [isTypeName, isName, Bool.and_eq_true, List.all_eq_true] at h
    obtain ⟨⟨hfirst, -⟩, hrest⟩ := h
    have hclass : isUpper c = true ∨ isLower c = true ∨ isDigit c = true := by
      rcases List.mem_cons.mp hc with rfl | hc
      · exact .inl hfirst
      · simpa [or_assoc] using hrest c hc
    simp only [isUpper, isLower, isDigit, Bool.and_eq_true, decide_eq_true_eq] at hclass
    omega

/-- A type that is accepted is a name, or a name with a newline. -/
theorem isEntityType_cases (h : isEntityType type = true) :
    (isTypeName type = true ↔ type.getLast? ≠ some 0x0a) ∧ ∀ c ∈ type, c ≠ 0x3a := by
  have hlast : isTypeName type = true → type.getLast? ≠ some 0x0a := by
    intro hname hlast
    exact (of_mem_isTypeName hname (List.mem_of_getLast? hlast)).2 rfl
  simp only [isEntityType, matchesDollar, Bool.or_eq_true, Bool.and_eq_true, decide_eq_true_eq] at h
  rcases h with hname | ⟨hnewline, hname⟩
  · exact ⟨⟨hlast, fun _ => hname⟩, fun c hc => (of_mem_isTypeName hname hc).1⟩
  · refine ⟨⟨hlast, fun hne => (hne hnewline).elim⟩, fun c hc => ?_⟩
    rw [← List.dropLast_append_getLast? _ hnewline, List.mem_append, List.mem_singleton] at hc
    rcases hc with hc | rfl
    · exact (of_mem_isTypeName hname hc).1
    · decide

theorem isKey_keyOf (htype : ∀ c ∈ type, c ≠ 0x3a) (hname : name.getLast? ≠ some 0x0a) :
    isKey (keyOf type name) = true ↔ isTypeName type = true ∧ 1 ≤ name.length ∧
    name.length ≤ 400 := by
  have htake : (keyOf type name).takeWhile (· ≠ 0x3a) = type := by
    rw [keyOf, List.takeWhile_append_of_pos (by simpa using htype)]
    simp
  have hdrop : (keyOf type name).drop (type.length + 1) = name := by
    rw [keyOf, ← List.drop_drop, List.drop_left]
    rfl
  have hlen : type.length < (keyOf type name).length := by
    rw [keyOf, List.length_append, List.length_cons]
    omega
  unfold isKey
  dsimp only
  rw [htake, hdrop]
  simp [hlen, hname, isTypeName]

/-- The name in a key. -/
theorem dropWhile_keyOf (htype : ∀ c ∈ type, c ≠ 0x3a) :
    ((keyOf type name).dropWhile (· ≠ 0x3a)).drop 1 = name := by
  rw [keyOf, List.dropWhile_append_of_pos (by simpa using htype)]
  simp

theorem normalize_getLast (hU : Laws L.toUnicode) :
    (normalize L.toUnicode name).getLast? ≠ some 0x0a := by
  intro h
  rcases mem_join (List.mem_of_getLast? h) with hspace | ⟨w, hw, hc⟩
  · exact absurd hspace (by decide)
  · have hword := (Text.of_mem_words hw).2.2 _ hc
    rw [hU.isWord_newline] at hword
    exact Bool.false_ne_true hword

/-- When a key that was made is accepted. -/
theorem parseKey_keyOf (hU : Laws L.toUnicode) (htype : isEntityType type = true)
    (hne : normalize L.toUnicode name ≠ []) :
    parseKey L (keyOf type (normalize L.toUnicode name)) =
    .ok (keyOf type (normalize L.toUnicode name)) ↔
      (type.getLast? ≠ some 0x0a ∧ (normalize L.toUnicode name).length ≤ 400) ∧
        normalize L.toUnicode (normalize L.toUnicode name) = normalize L.toUnicode name := by
  obtain ⟨hlast, hcolon⟩ := isEntityType_cases htype
  have hpos := List.length_pos_of_ne_nil hne
  have hone : 1 ≤ (normalize L.toUnicode name).length := hpos
  rw [parseKey, dropWhile_keyOf hcolon, ensure_bind_eq_ok,
    isKey_keyOf hcolon (normalize_getLast hU), hlast]
  constructor
  · rintro ⟨⟨⟨htype, -, hlen⟩, hnorm⟩, -⟩
    exact ⟨⟨htype, hlen⟩, hnorm⟩
  · rintro ⟨⟨htype, hlen⟩, hnorm⟩
    exact ⟨⟨⟨htype, hone, hlen⟩, hnorm⟩, rfl⟩

/-- An entity can be asked for by its key: the key is taken unchanged, and so `GetEntity` and
`DeleteEntity` come to what they do with it. -/
structure Addressable (L : Library) (name key : Text) : Prop where
  normalized : normalize L.toUnicode (normalize L.toUnicode name) = normalize L.toUnicode name
  parsed : parseKey L key = .ok key
  deleteEntity : ∀ tenantId userId scope owner, parseOwner L tenantId userId scope = .ok owner →
    plan L (.deleteEntity tenantId userId scope key) = .ok (.deleteEntity owner key)
  getEntity : ∀ tenantId userId scope owner limit, parseOwner L tenantId userId scope = .ok owner →
    1 ≤ limit ∧ limit ≤ 500 →
      plan L (.getEntity tenantId userId scope key limit) = .ok (.getEntity owner key limit.toNat)

theorem Addressable.of_parseKey
    (hnorm : normalize L.toUnicode (normalize L.toUnicode name) = normalize L.toUnicode name)
    (h : parseKey L key = .ok key) : Addressable L name key where
  normalized := hnorm
  parsed := h
  deleteEntity tenantId userId scope owner howner := by
    rw [plan, howner, ok_bind, h, ok_bind]
    rfl
  getEntity tenantId userId scope owner limit howner hlimit := by
    have hne : limit ≠ 0 := by omega
    rw [plan, howner, ok_bind, h, ok_bind]
    dsimp only
    rw [if_pos hne, ensure_of hlimit, ok_bind]
    rfl

/-- **Keys**: an entity with an accepted type and a name that has a key can be asked for by it if
folding leaves the letters of its name alone, its type has no newline, and its normalized name is
not too long; and only then, as far as folding leaves alone what normalizing does. -/
theorem entityKey_addressable (hU : Laws L.toUnicode) (htype : entityType L type = .ok type)
    (hkey : entityKey L type name = .ok key) :
    (Folded L.toUnicode name ∧ type.getLast? ≠ some 0x0a ∧
      (normalize L.toUnicode name).length ≤ 400 → Addressable L name key) ∧
    (Addressable L name key →
      ((∀ u, normalize L.toUnicode u = u → L.casefold u = u) → Folded L.toUnicode name) ∧
        type.getLast? ≠ some 0x0a ∧ (normalize L.toUnicode name).length ≤ 400) := by
  have htype' : isEntityType type = true := (ensure_bind_eq_ok.mp htype).1
  obtain ⟨hne, hok⟩ := ensure_bind_eq_ok.mp hkey
  obtain rfl : keyOf type (normalize L.toUnicode name) = key := Except.ok.inj hok
  constructor
  · rintro ⟨hfold, hshort⟩
    have hnorm := normalize_normalize hU hne hfold
    exact .of_parseKey hnorm ((parseKey_keyOf hU htype' hne).mpr ⟨hshort, hnorm⟩)
  · intro h
    obtain ⟨hshort, hnorm⟩ := (parseKey_keyOf hU htype' hne).mp h.parsed
    exact ⟨fun hstable => folded_of_normalize hU hstable hnorm, hshort⟩

end

/-- A name in plain letters. -/
theorem entityKey_addressable_maria : Addressable ascii (ofString "Maria")
    (ofString "Person:maria") := by
  have htype : entityType ascii (ofString "Person") = .ok (ofString "Person") := rfl
  refine (entityKey_addressable ascii_laws htype rfl).1 ⟨?_, ?_, ?_⟩
  · intro c hc hword
    revert c
    decide
  · decide
  · decide

/-- Three entities that are stored and cannot be asked for: the sign decomposes to capital letters,
which are folded the second time; the ligature makes a name of 23 characters longer than 400; and a
type may end with a newline, which no key has. -/
theorem unaddressable :
    let rejected :=
  Except.error (invalid "key must be an entity key such as Person:maria papadopoulou")
    let ligatures := List.replicate 23 0xfdfa
    (cleanText [0x2122] "entity name" maxName true = .ok [0x2122] ∧
      entityKey fewCharacters (ofString "Product") [0x2122] = .ok (ofString "Product:TM") ∧
      normalize fewCharacters.toUnicode (ofString "TM") = ofString "tm" ∧
      parseKey fewCharacters (ofString "Product:TM") = rejected) ∧
    (cleanText ligatures "entity name" maxName true = .ok ligatures ∧
      (entityKey fewCharacters (ofString "Phrase") ligatures).map List.length = .ok 421 ∧
      entityKey fewCharacters (ofString "Phrase") ligatures >>= parseKey fewCharacters = rejected) ∧
    (entityType fewCharacters (ofString "Person\n") = .ok (ofString "Person\n") ∧
      entityKey fewCharacters (ofString "Person\n") (ofString "Maria") =
        .ok (ofString "Person\n:maria") ∧
      parseKey fewCharacters (ofString "Person\n:maria") = rejected) := by
  decide +kernel

end Jarvis.Knowledge
