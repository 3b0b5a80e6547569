import Jarvis.Knowledge.Retrieval
import Mathlib

/-!
# The knowledge service: what fits into the context

`pack` as a whole: which lines are offered (`offered`), which of them are the first with their text
(`firsts`), which are chosen (`chosen`), and what they cost together (`spent`).
-/

namespace Jarvis.Knowledge

/-! ### Scores -/

/-- Numbers only. -/
def Numbers {α : Type} (score : α → Flt) (l : List α) : Prop := ∀ x ∈ l, score x ≠ .nan

/-- In descending score. -/
def Descending {α : Type} (score : α → Flt) (l : List α) : Prop :=
  l.Pairwise fun x y => (score y).le (score x) = true

variable {α : Type}

theorem byScore_perm (score : α → Flt) (l : List α) : (byScore score l).Perm l :=
  List.mergeSort_perm l _

theorem byScore_descending {score : α → Flt} {l : List α} (h : Numbers score l) :
    Descending score (byScore score l) := by
  have hsort : byScore score l = l.mergeSort fun x y => Flt.descends (score x) (score y) := by
    have hmap := List.map_mergeSort (r := fun x y => !(score x).lt (score y))
      (s := fun x y => Flt.descends (score x) (score y)) (f := id) (l := l)
      fun x hx y hy => Flt.not_lt (h x hx) (h y hy)
    rwa [List.map_id, List.map_id] at hmap
  have hpair : (l.mergeSort fun x y => Flt.descends (score x) (score y)).Pairwise
      fun x y => Flt.descends (score x) (score y) = true := by
    apply List.pairwise_mergeSort
    · intro x y z
      exact Flt.descends_trans
    · intro x y
      exact Flt.descends_total _ _
  rw [Descending, hsort]
  refine hpair.imp_of_mem fun {x y} _ hy hxy => ?_
  have hne : score y ≠ .nan := h y (List.mem_mergeSort.mp hy)
  simpa [Flt.descends, hne] using hxy

/-! ### Lines -/

/-- A line that is offered, at its place. -/
def Candidate.of (place : Section × ℕ) (score : Flt) (line : Text) : Candidate :=
  ⟨place, score, estimateTokens (line ++ [0x0a]), line⟩

/-- Every line in the order in which it is offered. -/
def offered (c : Config) (entities : List (StoredEntity × Flt)) (relations : List Found)
    (passages : List PassageHit) : List Candidate :=
  entities.zipIdx.map (fun x => .of (.entities, x.2) x.1.2 (entityLine x.1.1)) ++
    relations.zipIdx.map (fun x => .of (.relations, x.2) x.1.2.1 (relationLine x.1.1)) ++
    passages.zipIdx.map fun x => .of (.passages, x.2) x.1.score (passageLine c x.1)

/-- The lines that are the first with their text. -/
def firsts (l : List Candidate) : List Candidate :=
  l.foldl (fun acc x => addCandidate acc x.place x.score x.line) []

/-- The first line with a text. -/
def firstWith (line : Text) (l : List Candidate) : Option Candidate :=
  l.find? fun x => x.line = line

/-- A line costs what its text costs. -/
def Candidate.Costed (x : Candidate) : Prop := x.tokens = estimateTokens (x.line ++ [0x0a])

theorem Candidate.Costed.of {x : Candidate} (h : x.Costed) : .of x.place x.score x.line = x := by
  obtain ⟨place, score, tokens, line⟩ := x
  have htokens : tokens = _ := h
  rw [htokens]
  rfl

section

variable {l : List Candidate} {x : Candidate} {line : Text}

theorem firsts_snoc (hx : x.Costed) : firsts (l ++ [x]) =
    if (firsts l).any fun y => y.line = x.line then firsts l else firsts l ++ [x] := by
  rw [firsts, List.foldl_append]
  have hadd : (⟨x.place, x.score, estimateTokens (x.line ++ [0x0a]), x.line⟩ : Candidate) = x :=
    hx.of
  simp only [List.foldl_cons, List.foldl_nil, addCandidate, hadd]
  rfl

/-- The firsts are exactly what is found by a text. -/
theorem firstWith_firsts (hl : ∀ x ∈ l, x.Costed) :
    firstWith line (firsts l) = firstWith line l := by
  induction l using List.reverseRecOn with
  | nil => rfl
  | append_singleton l x ih =>
    have hinit := ih fun y hy => hl y (List.mem_append_left _ hy)
    have hx := hl x (by simp)
    rw [firsts_snoc hx]
    unfold firstWith at *
    split_ifs with hany
    · -- The text is there already: the search stops before `x`.
      rw [List.find?_append, ← hinit]
      cases hfind : (firsts l).find? fun y => y.line = line with
      | some y => rfl
      | none =>
        have hne : x.line ≠ line := by
          rintro rfl
          obtain ⟨y, hy, hline⟩ := List.any_eq_true.mp hany
          exact List.find?_eq_none.mp hfind y hy hline
        simp [hne]
    · rw [List.find?_append, List.find?_append, hinit]

theorem firsts_nodup (hl : ∀ x ∈ l, x.Costed) : ((firsts l).map Candidate.line).Nodup := by
  induction l using List.reverseRecOn with
  | nil => exact List.nodup_nil
  | append_singleton l x ih =>
    have hinit := ih fun y hy => hl y (List.mem_append_left _ hy)
    rw [firsts_snoc (hl x (by simp))]
    split_ifs with hany
    · exact hinit
    · rw [List.map_append]
      refine List.nodup_append.mpr ⟨hinit, by simp, ?_⟩
      intro a ha b hb hab
      obtain ⟨y, hy, rfl⟩ := List.mem_map.mp ha
      have hb' : b = x.line := by simpa using hb
      exact hany (List.any_eq_true.mpr ⟨y, hy, by simp [hab, hb']⟩)

/-- A line is among the firsts if it is found by its text. -/
theorem mem_firsts (hl : ∀ x ∈ l, x.Costed) : x ∈ firsts l ↔ firstWith x.line l = some x := by
  rw [← firstWith_firsts hl]
  unfold firstWith
  constructor
  · intro hx
    cases hfind : (firsts l).find? fun y => y.line = x.line with
    | none => exact (List.find?_eq_none.mp hfind x hx (by simp)).elim
    | some y =>
      have hy := List.mem_of_find?_eq_some hfind
      have hline : y.line = x.line := by simpa using List.find?_some hfind
      rw [List.inj_on_of_nodup_map (firsts_nodup hl) hy hx hline]
  · exact List.mem_of_find?_eq_some

end

/-! ### Choosing -/

/-- What a header costs. -/
def headerTokens (part : Section) : ℕ := estimateTokens (part.header ++ [0x0a])

/-- What a line costs after the ones that are chosen: with its header if it is the first of its
section. -/
def cost (chosen : List Candidate) (x : Candidate) : ℕ :=
  x.tokens + if chosen.any fun y => y.place.1 = x.place.1 then 0 else headerTokens x.place.1

/-- What the chosen lines cost, one after the other. -/
def spent (chosen : List Candidate) : ℕ := (chosen.foldl (fun (acc : List Candidate × ℕ) x =>
  (acc.1 ++ [x], acc.2 + cost acc.1 x)) ([], 0)).2

theorem spent_fst (l acc : List Candidate) (n : ℕ) : (l.foldl (fun (acc : List Candidate × ℕ) x =>
    (acc.1 ++ [x], acc.2 + cost acc.1 x)) (acc, n)).1 = acc ++ l := by
  induction l generalizing acc n with
  | nil => simp
  | cons x l ih => simp [ih]

theorem spent_snoc (l : List Candidate) (x : Candidate) :
    spent (l ++ [x]) = spent l + cost l x := by
  unfold spent
  rw [List.foldl_append]
  simp only [List.foldl_cons, List.foldl_nil]
  rw [spent_fst, List.nil_append]

/-- A line was tried and did not fit in what the lines chosen before it left. -/
def LeftOut (budget : ℕ) (tried chosen : List Candidate) (x : Candidate) : Prop :=
  ∃ before after better rest, tried = before ++ x :: after ∧ chosen = better ++ rest ∧
    better.Sublist before ∧ rest.Sublist after ∧ budget < spent better + cost better x

/-- The state of the loop after some lines. -/
structure Chose (budget : ℕ) (tried chosen : List Candidate) (used : ℕ)
    (truncated : Bool) : Prop where
  used_eq : used = spent chosen
  used_le : used ≤ budget
  sublist : chosen.Sublist tried
  truncated_iff : truncated = false ↔ chosen = tried
  left : ∀ x ∈ tried, x ∈ chosen ∨ LeftOut budget tried chosen x

section

variable {budget used : ℕ} {tried chosen : List Candidate} {truncated : Bool}

theorem Chose.nil (budget : ℕ) : Chose budget [] [] 0 false where
  used_eq := rfl
  used_le := Nat.zero_le _
  sublist := .slnil
  truncated_iff := by simp
  left := by simp

theorem LeftOut.append (h : LeftOut budget tried chosen x) {more more' : List Candidate}
    (hmore : more'.Sublist more) : LeftOut budget (tried ++ more) (chosen ++ more') x := by
  obtain ⟨before, after, better, rest, rfl, rfl, hbetter, hrest, hcost⟩ := h
  exact ⟨before, after ++ more, better, rest ++ more', by simp, by simp, hbetter,
    hrest.append hmore, hcost⟩

/-- **One line.** -/
theorem Chose.choose (h : Chose budget tried chosen used truncated) (x : Candidate) :
    let r := choose budget (chosen, used, truncated) x
    Chose budget (tried ++ [x]) r.1 r.2.1 r.2.2 := by
  have hcost : x.tokens + (if chosen.any (fun y => y.place.1 = x.place.1) then 0
      else estimateTokens (x.place.1.header ++ [0x0a])) = cost chosen x := rfl
  dsimp only [Knowledge.choose]
  rw [hcost]
  split_ifs with hfull
  · refine ⟨h.used_eq, h.used_le, h.sublist.trans (List.sublist_append_left _ _), ?_, ?_⟩
    · have hlen := h.sublist.length_le
      constructor
      · simp
      · rintro rfl
        simp at hlen
    · intro y hy
      rcases List.mem_append.mp hy with hy | hy
      · refine (h.left y hy).imp_right fun hout => ?_
        have hmore := hout.append (List.nil_sublist [x])
        rwa [List.append_nil] at hmore
      · rw [List.mem_singleton.mp hy]
        refine .inr ⟨tried, [], chosen, [], rfl, (List.append_nil _).symm, h.sublist, .slnil, ?_⟩
        rwa [← h.used_eq]
  · refine ⟨by rw [spent_snoc, h.used_eq], not_lt.mp hfull, h.sublist.append_right _, ?_, ?_⟩
    · rw [h.truncated_iff]
      exact (List.append_left_inj [x]).symm
    · intro y hy
      rcases List.mem_append.mp hy with hy | hy
      · exact (h.left y hy).imp (List.mem_append_left _) fun hout => hout.append (.refl [x])
      · exact .inl (List.mem_append_right _ hy)

/-- **Any lines.** -/
theorem Chose.run (h : Chose budget tried chosen used truncated) (l : List Candidate) :
    let r := l.foldl (Knowledge.choose budget) (chosen, used, truncated)
    Chose budget (tried ++ l) r.1 r.2.1 r.2.2 := by
  induction l generalizing tried chosen used truncated with
  | nil => simpa using h
  | cons x l ih =>
    have hnext := ih (h.choose x)
    rwa [List.append_assoc] at hnext

/-- What is chosen of the lines that are offered, in descending score. -/
def chosenOf (budget : ℕ) (l : List Candidate) : List Candidate × ℕ × Bool :=
  (byScore Candidate.score l).foldl (Knowledge.choose budget) ([], 0, false)

theorem chose (budget : ℕ) (l : List Candidate) :
    Chose budget (byScore Candidate.score l) (chosenOf budget l).1 (chosenOf budget l).2.1
      (chosenOf budget l).2.2 :=
  (Chose.nil budget).run _

end

/-! ### The text that is joined -/

/-- The bytes of a text. -/
def byteSize (t : Text) : ℕ := (t.map utf8Size).sum

theorem byteSize_append (t u : Text) : byteSize (t ++ u) = byteSize t + byteSize u := by
  simp [byteSize]

theorem byteSize_newline (t : Text) : byteSize (t ++ [0x0a]) = byteSize t + 1 :=
  byteSize_append t [0x0a]

theorem le_estimateTokens (t : Text) : byteSize t ≤ 4 * estimateTokens t := by
  unfold estimateTokens byteSize
  omega

/-- Lines that are joined, with one byte more. -/
theorem byteSize_join {l : List Text} (h : l ≠ []) :
    byteSize ([0x0a].intercalate l) + 1 = (l.map fun t => byteSize (t ++ [0x0a])).sum := by
  induction l with
  | nil => exact (h rfl).elim
  | cons t l ih =>
    cases l with
    | nil => simp [byteSize_newline]
    | cons u l =>
      have hrest := ih (by simp)
      rw [List.map_cons, List.sum_cons, ← hrest, List.intercalate_cons_cons,
        byteSize_append, byteSize_newline, Nat.add_assoc]

/-- The sections in their order. -/
def parts : List Section := [.entities, .relations, .passages]

/-- The chosen lines of a section. -/
def ofPart (part : Section) (chosen : List Candidate) : List Candidate :=
  chosen.filter fun x => x.place.1 = part

/-- What a section costs. -/
def partSpent (chosen : List Candidate) (part : Section) : ℕ :=
  if ofPart part chosen = [] then 0
  else headerTokens part + ((ofPart part chosen).map Candidate.tokens).sum

theorem partSpent_snoc (l : List Candidate) (x : Candidate) (part : Section) :
    partSpent (l ++ [x]) part = partSpent l part + if x.place.1 = part then cost l x else 0 := by
  unfold partSpent ofPart
  rw [List.filter_append]
  by_cases hpart : x.place.1 = part
  · subst hpart
    by_cases hnil : l.filter (fun y => y.place.1 = x.place.1) = []
    · have hany : (l.any fun y => y.place.1 = x.place.1) = false := by
        simpa [List.filter_eq_nil_iff] using hnil
      simp [cost, hnil, hany, Nat.add_comm]
    · have hany : (l.any fun y => y.place.1 = x.place.1) = true := by
        simpa [List.filter_eq_nil_iff] using hnil
      simp [cost, hnil, hany, Nat.add_assoc]
  · simp [hpart]

theorem spent_eq (chosen : List Candidate) : spent chosen = (parts.map (partSpent chosen)).sum := by
  induction chosen using List.reverseRecOn with
  | nil => rfl
  | append_singleton l x ih =>
    rw [spent_snoc, ih]
    simp only [parts, List.map_cons, List.map_nil, List.sum_cons, List.sum_nil, partSpent_snoc]
    cases x.place.1 <;> simp <;> omega

/-- A block costs what its section costs. -/
theorem byteSize_block {chosen : List Candidate} (hcosted : ∀ x ∈ chosen, x.Costed)
    (h : block chosen part = some b) : byteSize (b ++ [0x0a]) ≤ 4 * partSpent chosen part := by
  have hitems : ∀ x ∈ ofPart part chosen, byteSize (x.line ++ [0x0a]) ≤ 4 * x.tokens := by
    intro x hx
    rw [hcosted x (List.mem_filter.mp hx).1]
    exact le_estimateTokens _
  have hlines : (((byScore Candidate.score (ofPart part chosen)).map Candidate.line).map
      fun t => byteSize (t ++ [0x0a])).sum ≤
        4 * ((ofPart part chosen).map Candidate.tokens).sum := by
    rw [List.map_map, ((byScore_perm Candidate.score (ofPart part chosen)).map _).sum_eq,
      ← List.sum_map_mul_left]
    exact List.sum_le_sum hitems
  unfold block at h
  change (if ofPart part chosen = [] then none else _) = some b at h
  split_ifs at h with hnil
  rw [partSpent, if_neg hnil, byteSize_newline, ← Option.some.inj h, byteSize_join (by simp),
    List.map_cons, List.sum_cons, Nat.mul_add]
  exact Nat.add_le_add (le_estimateTokens _) hlines

theorem sum_filterMap_le {β : Type} {f : α → Option β} {g : β → ℕ} {m : α → ℕ}
    (h : ∀ x y, f x = some y → g y ≤ m x) (l : List α) :
    ((l.filterMap f).map g).sum ≤ (l.map m).sum := by
  induction l with
  | nil => exact le_rfl
  | cons x l ih =>
    cases hx : f x with
    | none =>
      rw [List.filterMap_cons_none hx, List.map_cons, List.sum_cons]
      exact ih.trans (Nat.le_add_left _ _)
    | some y =>
      rw [List.filterMap_cons_some hx, List.map_cons, List.sum_cons, List.map_cons, List.sum_cons]
      exact Nat.add_le_add (h x y hx) ih

/-- The context costs no more than what was spent on it. -/
theorem estimateTokens_context {chosen : List Candidate} (hcosted : ∀ x ∈ chosen, x.Costed)
    (hne : [0x0a].intercalate (parts.filterMap (block chosen)) ≠ []) :
    estimateTokens ([0x0a].intercalate (parts.filterMap (block chosen))) ≤ spent chosen := by
  have hblocks : parts.filterMap (block chosen) ≠ [] := by
    intro hnil
    exact hne (by rw [hnil]; rfl)
  have hjoin := byteSize_join hblocks
  have hsum := sum_filterMap_le (f := block chosen) (g := fun t => byteSize (t ++ [0x0a]))
    (m := fun part => 4 * partSpent chosen part) (fun _ _ => byteSize_block hcosted) parts
  rw [List.sum_map_mul_left, ← spent_eq] at hsum
  unfold estimateTokens
  unfold byteSize at hjoin hsum
  omega

/-! ### The result -/

section

variable (c : Config) (entities : List (StoredEntity × Flt)) (relations : List Found)
    (passages : List PassageHit) (budget : ℕ)

/-- The lines that are chosen. -/
def chosen (budget : ℕ) (l : List Candidate) : List Candidate := (chosenOf budget (firsts l)).1

/-- Whether the item at a place is the first with its line, and that is chosen. -/
def keeps (all chosen : List Candidate) (place : Section × ℕ) (line : Text) : Bool :=
  ((firstWith line all).any fun x => x.place = place) && chosen.any fun y => y.line = line

theorem candidates_eq : firsts (offered c entities relations passages) =
    passages.zipIdx.foldl (fun acc (x, i) => addCandidate acc (.passages, i) x.score
      (passageLine c x))
      (relations.zipIdx.foldl (fun acc (x, i) => addCandidate acc (.relations, i) x.2.1
        (relationLine x.1))
        (entities.zipIdx.foldl (fun acc (x, i) => addCandidate acc (.entities, i) x.2
          (entityLine x.1)) [])) := by
  unfold firsts offered
  rw [List.foldl_append, List.foldl_append, List.foldl_map, List.foldl_map, List.foldl_map]
  rfl

theorem pack_eq : pack c entities relations passages budget =
    let l := chosen budget (offered c entities relations passages)
    let context := [0x0a].intercalate (parts.filterMap (block l))
    { entities := (entities.zipIdx.filter fun y => l.any fun item =>
      item.place = (.entities, y.2)).map Prod.fst
      relations := (relations.zipIdx.filter fun y => l.any fun item =>
        item.place = (.relations, y.2)).map Prod.fst
      passages := (passages.zipIdx.filter fun y => l.any fun item =>
        item.place = (.passages, y.2)).map Prod.fst
      context
      tokens := if context ≠ [] then estimateTokens context else 0
      truncated := (chosenOf budget (firsts (offered c entities relations passages))).2.2 } := by
  unfold pack chosen chosenOf
  rw [candidates_eq]
  rfl

/-- What holds of the lines that are offered: they cost what they should, and no two are at one
place. -/
structure Offered (l : List Candidate) : Prop where
  costed : ∀ x ∈ l, x.Costed
  inj : ∀ x ∈ l, ∀ y ∈ l, x.place = y.place → x = y

theorem offered_spec : Offered (offered c entities relations passages) where
  costed x hx := by
    simp only [offered, List.mem_append, List.mem_map] at hx
    rcases hx with (⟨y, -, rfl⟩ | ⟨y, -, rfl⟩) | ⟨y, -, rfl⟩ <;> rfl
  inj x hx y hy hplace := by
    simp only [offered, List.mem_append, List.mem_map] at hx hy
    rcases hx with (⟨⟨e, i⟩, he, rfl⟩ | ⟨⟨e, i⟩, he, rfl⟩) | ⟨⟨e, i⟩, he, rfl⟩ <;>
      rcases hy with (⟨⟨e', i'⟩, he', rfl⟩ | ⟨⟨e', i'⟩, he', rfl⟩) | ⟨⟨e', i'⟩, he', rfl⟩ <;>
      simp only [Candidate.of, Prod.mk.injEq, reduceCtorEq, false_and, true_and] at hplace
    all_goals
      have hi := List.mem_zipIdx_iff_getElem?.mp he
      have hi' := List.mem_zipIdx_iff_getElem?.mp he'
      dsimp only at hi hi'
      rw [hplace, hi'] at hi
      rw [Option.some.inj hi, hplace]

variable {budget} {l : List Candidate} {x : Candidate}

theorem mem_of_first {line : Text} (h : firstWith line l = some x) : x ∈ l :=
  List.mem_of_find?_eq_some h

theorem Offered.first (h : Offered l) (hx : x ∈ chosen budget l) : firstWith x.line l = some x := by
  have hmem := (byScore_perm _ _).mem_iff.mp ((chose budget (firsts l)).sublist.subset hx)
  exact (mem_firsts h.costed).mp hmem

/-- A place is kept exactly if its item is the first with its line and that is chosen. -/
theorem Offered.any_place (h : Offered l) (hx : x ∈ l) :
    ((chosen budget l).any fun item => item.place = x.place) =
    keeps l (chosen budget l) x.place x.line := by
  rw [Bool.eq_iff_iff, keeps, Bool.and_eq_true, Option.any_eq_true, List.any_eq_true,
    List.any_eq_true]
  constructor
  · rintro ⟨y, hy, hplace⟩
    have hfirst := h.first hy
    have heq : y = x := h.inj y (mem_of_first hfirst) x hx (by simpa using hplace)
    subst heq
    exact ⟨⟨y, hfirst, by simp⟩, y, hy, by simp⟩
  · rintro ⟨⟨z, hz, hplace⟩, y, hy, hline⟩
    have hfirst := h.first hy
    have hyline : y.line = x.line := by simpa using hline
    rw [hyline, hz] at hfirst
    exact ⟨y, hy, by rw [← Option.some.inj hfirst]; exact hplace⟩

/-- The lists of the result are filtered by place. -/
theorem Offered.filter_keeps (h : Offered l) {α : Type} (items : List α) (part : Section)
    (line : α → Text)
    (hmem : ∀ y ∈ items.zipIdx, ∃ x ∈ l, x.place = (part, y.2) ∧ x.line = line y.1) :
    items.zipIdx.filter (fun y => (chosen budget l).any fun item => item.place = (part, y.2)) =
      items.zipIdx.filter fun y => keeps l (chosen budget l) (part, y.2) (line y.1) := by
  refine List.filter_congr fun y hy => ?_
  obtain ⟨x, hx, hplace, hline⟩ := hmem y hy
  rw [← hplace, ← hline]
  exact h.any_place hx

/-- The blocks are those of the sections with lines. -/
theorem blocks_eq (chosen : List Candidate) : parts.filterMap (block chosen) =
    (parts.filter fun part => ofPart part chosen ≠ []).map fun part =>
      [0x0a].intercalate (part.header :: (byScore Candidate.score (ofPart part chosen)).map
        Candidate.line) := by
  have hblock : ∀ part, block chosen part = if ofPart part chosen = [] then none else
      some ([0x0a].intercalate
        (part.header :: (byScore Candidate.score (ofPart part chosen)).map Candidate.line)) :=
          fun _ => rfl
  induction parts with
  | nil => rfl
  | cons part rest ih =>
    by_cases hnil : ofPart part chosen = []
    · rw [List.filterMap_cons_none (by rw [hblock, if_pos hnil]), ih]
      simp [hnil]
    · rw [List.filterMap_cons_some (by rw [hblock, if_neg hnil]), ih]
      simp [hnil]

/-- A line that is not chosen did not fit. -/
theorem Offered.left_out (h : Offered l) (hfirst : firstWith x.line l = some x)
    (hout : x ∉ chosen budget l) :
    ∃ better rest, chosen budget l = better ++ rest ∧ budget < spent better + cost better x ∧
      (Numbers Candidate.score l →
        (∀ y ∈ better, x.score.le y.score = true) ∧ ∀ y ∈ rest, y.score.le x.score = true) := by
  have htried : x ∈ byScore Candidate.score (firsts l) :=
    (byScore_perm _ _).mem_iff.mpr ((mem_firsts h.costed).mpr hfirst)
  rcases (chose budget _).left x htried with hin | hleft
  · exact (hout hin).elim
  · obtain ⟨before, after, better, rest, hsplit, hchosen, hbetter, hrest, hcost⟩ := hleft
    refine ⟨better, rest, hchosen, hcost, fun hnum => ?_⟩
    have hnum' : Numbers Candidate.score (firsts l) := fun y hy =>
      hnum y (mem_of_first ((mem_firsts h.costed).mp hy))
    have hdesc := byScore_descending hnum'
    rw [Descending, hsplit, List.pairwise_append] at hdesc
    obtain ⟨-, hafter, hbefore⟩ := hdesc
    exact ⟨fun y hy => hbefore y (hbetter.subset hy) x List.mem_cons_self,
      fun y hy => List.rel_of_pairwise_cons hafter (hrest.subset hy)⟩

theorem Offered.truncated_iff (h : Offered l) :
    (chosenOf budget (firsts l)).2.2 = true ↔ ∃ x ∈ l, ∀ y ∈ chosen budget l, y.line ≠ x.line := by
  have hrun := chose budget (firsts l)
  have hperm := byScore_perm Candidate.score (firsts l)
  rw [← Bool.not_eq_false, hrun.truncated_iff]
  constructor
  · intro hne
    -- Something that was tried is missing, and no other line has its text.
    have hmiss : ∃ x ∈ byScore Candidate.score (firsts l), x ∉ chosen budget l := by
      by_contra hall
      push Not at hall
      have hnodup : (byScore Candidate.score (firsts l)).Nodup :=
        hperm.nodup_iff.mpr (List.Nodup.of_map _ (firsts_nodup h.costed))
      exact hne (hrun.sublist.eq_of_length_le (hnodup.length_le_of_subset hall))
    obtain ⟨x, hx, hout⟩ := hmiss
    have hfirst := (mem_firsts h.costed).mp (hperm.mem_iff.mp hx)
    refine ⟨x, mem_of_first hfirst, fun y hy hline => hout ?_⟩
    have hyfirst := h.first hy
    rw [hline, hfirst] at hyfirst
    rwa [Option.some.inj hyfirst]
  · rintro ⟨x, hx, hnone⟩ hall
    obtain ⟨z, hz⟩ : ∃ z, firstWith x.line l = some z :=
      Option.isSome_iff_exists.mp (List.find?_isSome.mpr ⟨x, hx, by simp⟩)
    have hzline : z.line = x.line := by simpa using List.find?_some hz
    have hzmem : z ∈ chosen budget l := by
      rw [chosen, hall, hperm.mem_iff, mem_firsts h.costed, hzline]
      exact hz
    exact hnone z hzmem hzline

end

/-- **Packing.** There are chosen lines, no two with one text, each the first one with its text,
such that: the context is within the budget; it has the sections with lines in their order, each
with its header and its chosen lines in descending score; the lists have, in their order, the items
that are the first with their line and whose line is chosen; what is the first with its line and not
chosen did not fit in what the chosen lines with a better score left; and the flag is set exactly if
some line is not there. -/
theorem pack_spec (c : Config) (entities : List (StoredEntity × Flt)) (relations : List Found)
    (passages : List PassageHit) (budget : ℕ) :
    let all := offered c entities relations passages
    let r := pack c entities relations passages budget
    ∃ chosen : List Candidate,
      (∀ x ∈ chosen, firstWith x.line all = some x) ∧ (chosen.map Candidate.line).Nodup ∧
      r.tokens ≤ budget ∧ (r.tokens = if r.context = [] then 0 else estimateTokens r.context) ∧
      (∃ order : Section → List Candidate,
        (∀ part, (order part).Perm (ofPart part chosen) ∧
          (Numbers Candidate.score all → Descending Candidate.score (order part))) ∧
        r.context = [0x0a].intercalate
          ((parts.filter fun part => ofPart part chosen ≠ []).map fun part =>
          [0x0a].intercalate (part.header :: (order part).map Candidate.line))) ∧
      r.entities = (entities.zipIdx.filter fun y =>
        keeps all chosen (.entities, y.2) (entityLine y.1.1)).map Prod.fst ∧
      r.relations = (relations.zipIdx.filter fun y =>
        keeps all chosen (.relations, y.2) (relationLine y.1.1)).map Prod.fst ∧
      r.passages = (passages.zipIdx.filter fun y =>
        keeps all chosen (.passages, y.2) (passageLine c y.1)).map Prod.fst ∧
      (∀ x ∈ all, x ∈ chosen ∨ firstWith x.line all ≠ some x ∨
        ∃ better rest, chosen = better ++ rest ∧ budget < spent better + cost better x ∧
          (Numbers Candidate.score all →
            (∀ y ∈ better, x.score.le y.score = true) ∧ ∀ y ∈ rest, y.score.le x.score = true)) ∧
      (r.truncated = true ↔ ∃ x ∈ all, ∀ y ∈ chosen, y.line ≠ x.line) := by
  intro all r
  have hall : Offered all := offered_spec c entities relations passages
  have hrun := chose budget (firsts all)
  have hmem : ∀ x ∈ chosen budget all, x ∈ all := fun x hx => mem_of_first (hall.first hx)
  have hr : r = _ := pack_eq c entities relations passages budget
  rw [hr]
  refine ⟨chosen budget all, fun x hx => hall.first hx, ?_, ?_, ?_, ?_, ?_, ?_, ?_, ?_,
    hall.truncated_iff⟩
  · have hlines : ((byScore Candidate.score (firsts all)).map Candidate.line).Nodup :=
      ((byScore_perm _ _).map _).nodup_iff.mpr (firsts_nodup hall.costed)
    exact hlines.sublist (hrun.sublist.map _)
  · dsimp only
    split_ifs with hne
    · exact (estimateTokens_context (fun x hx => hall.costed x (hmem x hx)) hne).trans
        (hrun.used_eq ▸ hrun.used_le)
    · exact Nat.zero_le _
  · dsimp only
    split_ifs <;> first | rfl | contradiction
  · refine ⟨fun part => byScore Candidate.score (ofPart part (chosen budget all)),
      fun part => ⟨byScore_perm _ _, fun hnum => ?_⟩, ?_⟩
    · exact byScore_descending fun x hx => hnum x (hmem x (List.mem_filter.mp hx).1)
    · dsimp only
      rw [blocks_eq]
  · dsimp only
    rw [hall.filter_keeps entities .entities (fun x => entityLine x.1)]
    intro y hy
    exact ⟨_, List.mem_append_left _ (List.mem_append_left _ (List.mem_map_of_mem hy)), rfl, rfl⟩
  · dsimp only
    rw [hall.filter_keeps relations .relations (fun x => relationLine x.1)]
    intro y hy
    exact ⟨_, List.mem_append_left _ (List.mem_append_right _ (List.mem_map_of_mem hy)), rfl, rfl⟩
  · dsimp only
    rw [hall.filter_keeps passages .passages (passageLine c)]
    intro y hy
    exact ⟨_, List.mem_append_right _ (List.mem_map_of_mem hy), rfl, rfl⟩
  · intro x _
    by_cases hin : x ∈ chosen budget all
    · exact .inl hin
    · by_cases hx : firstWith x.line all = some x
      · exact .inr (.inr (hall.left_out hx hin))
      · exact .inr (.inl hx)

end Jarvis.Knowledge
