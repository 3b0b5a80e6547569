import Jarvis.Bytes
import Mathlib

/-!
# The MCP router: results of tools

What a tool returns, cut to a number of bytes. Source:
`services/mcp-router/internal/router/tools.go` (`callTool`, `structured`, `convertContent`) and
`errors.go` (`truncateUTF8`). Strings are their bytes.
-/

namespace Jarvis.Mcp

/-! ### Source -/

/-- Source: `mcp.ResourceContents` -/
structure ResourceContents where
  uri : Bytes
  mimeType : Bytes
  text : Bytes
  blob : Bytes

/-- Source: `mcp.Content`, with the types that `convertContent` does not know as `other` -/
inductive Block where
  | text (text : Bytes)
  | image (data mimeType : Bytes)
  | audio (data mimeType : Bytes)
  | resourceLink (uri name mimeType description : Bytes)
  | embeddedResource (resource : Option ResourceContents)
  | other

/-- Source: `mcpv1.Content` -/
inductive Content where
  | text (text : Bytes)
  | image (mimeType data : Bytes)
  | audio (mimeType data : Bytes)
  | resourceLink (uri name mimeType description : Bytes)
  | resource (uri mimeType text blob : Bytes)
  deriving DecidableEq

/-- Source: `maxResultBytes` -/
def maxResultBytes : ℕ := 1048576

/-- Source: `utf8.RuneStart` -/
def runeStart (b : UInt8) : Bool := b &&& 0xC0 != 0x80

/-- The loop of `truncateUTF8`. -/
def boundary (s : Bytes) : ℕ → ℕ
  | 0 => 0
  | n + 1 => if (s[n + 1]?).any runeStart then n + 1 else boundary s n

/-- Source: `truncateUTF8` -/
def truncateUTF8 (s : Bytes) (n : ℕ) : Bytes := if s.length ≤ n then s else s.take (boundary s n)

/-- The variables of the loop of `convertContent`. -/
structure Converted where
  out : List Content
  budget : ℕ
  truncated : Bool

/-- A block of `n` bytes that is kept or dropped. -/
def Converted.take (s : Converted) (n : ℕ) (c : Content) : Converted :=
  if s.budget < n then { s with truncated := true }
  else { s with out := s.out ++ [c], budget := s.budget - n }

/-- One block of `convertContent`. -/
def convertBlock (s : Converted) : Block → Converted
  | .text t =>
    let text := if s.budget < t.length then truncateUTF8 t s.budget else t
    { out := if text ≠ [] ∨ t = [] then s.out ++ [.text text] else s.out,
      budget := s.budget - text.length,
      truncated := s.truncated || s.budget < t.length }
  | .image data mime => s.take (data.length + mime.length) (.image mime data)
  | .audio data mime => s.take (data.length + mime.length) (.audio mime data)
  | .resourceLink uri name mime description =>
    s.take (uri.length + name.length + mime.length + description.length)
      (.resourceLink uri name mime description)
  | .embeddedResource (some r) =>
    s.take (r.uri.length + r.mimeType.length + r.text.length + r.blob.length)
      (.resource r.uri r.mimeType r.text r.blob)
  | .embeddedResource none => s
  | .other => s

/-- Source: `convertContent` -/
def convertContent (blocks : List Block) (budget : ℕ) : Converted :=
  blocks.foldl convertBlock ⟨[], budget, false⟩

/-- Source: `structured`; the text, whether it was left out, and the budget. `marshal` is
`json.Marshal`. -/
def structured {V : Type} (marshal : V → Option Bytes) (value : Option V) (budget : ℕ) :
    Bytes × Bool × ℕ :=
  match value with
  | none => ([], false, budget)
  | some v =>
    match marshal v with
    | none => ([], true, budget)
    | some data =>
      if budget < data.length then ([], true, budget) else (data, false, budget - data.length)

/-- Source: `mcpv1.CallToolResponse` -/
structure CallToolResponse where
  structuredContentJson : Bytes
  content : List Content
  truncated : Bool

/-- The part of `callTool` that converts a result that does not ask for input. -/
def convertResult {V : Type} (marshal : V → Option Bytes) (value : Option V) (blocks : List Block) :
    CallToolResponse :=
  let (json, cut, budget) := structured marshal value maxResultBytes
  let converted := convertContent blocks budget
  ⟨json, converted.out, cut || converted.truncated⟩

/-! ### Characters -/

theorem and_continuation : ∀ x < 64, UInt8.ofNat (x + 0x80) &&& 0xC0 = 0x80 := by decide

variable {b : UInt8} {blocks : List Block}

/-- The bytes of a character after its first one. -/
theorem runeStart_tail (hb : b ∈ (String.utf8EncodeChar c).tail) :
    runeStart b = false := by
  have hcont : ∃ x < 64, b = UInt8.ofNat (x + 0x80) := by
    unfold String.utf8EncodeChar at hb
    dsimp only at hb
    split_ifs at hb <;> simp only [List.tail_cons, List.mem_cons, List.not_mem_nil, or_false] at hb
    · exact ⟨_, Nat.mod_lt _ (by decide), hb⟩
    · rcases hb with hb | hb <;> exact ⟨_, Nat.mod_lt _ (by decide), hb⟩
    · rcases hb with hb | hb | hb <;> exact ⟨_, Nat.mod_lt _ (by decide), hb⟩
  obtain ⟨x, hx, rfl⟩ := hcont
  rw [runeStart, and_continuation x hx]
  rfl

theorem mem_tail_of_getElem? {l : List UInt8} (h : l[m]? = some b) (hm : m ≠ 0) :
    b ∈ l.tail := by
  obtain ⟨k, rfl⟩ := Nat.exists_eq_succ_of_ne_zero hm
  cases l with
  | nil => simp at h
  | cons a l => exact List.mem_of_getElem? h

/-- A byte that starts a character is where the characters before it end. -/
theorem take_of_runeStart : ∀ {cs : List Char} {m : ℕ},
    m = 0 ∨ ((cs.flatMap String.utf8EncodeChar)[m]?).any runeStart = true →
      ∃ k, (cs.flatMap String.utf8EncodeChar).take m =
        (cs.take k).flatMap String.utf8EncodeChar := by
  intro cs
  induction cs with
  | nil =>
    intro m _
    exact ⟨0, by simp⟩
  | cons c cs ih =>
    intro m hm
    rw [List.flatMap_cons] at hm ⊢
    by_cases hlt : m < (String.utf8EncodeChar c).length
    · -- Inside the first character: only its start is a boundary.
      have hzero : m = 0 := by
        by_contra hne
        have hstart := hm.resolve_left hne
        rw [List.getElem?_append_left hlt] at hstart
        obtain ⟨b, hb, hrune⟩ := Option.any_eq_true _ _ |>.mp hstart
        exact Bool.false_ne_true ((runeStart_tail (mem_tail_of_getElem? hb hne)).symm.trans hrune)
      exact ⟨0, by simp [hzero]⟩
    · obtain ⟨j, rfl⟩ := Nat.exists_eq_add_of_le (not_lt.mp hlt)
      have hrest : j = 0 ∨ ((cs.flatMap String.utf8EncodeChar)[j]?).any runeStart = true := by
        rcases hm with hm | hm
        · exact .inl (by omega)
        · right
          rwa [List.getElem?_append_right (Nat.le_add_right _ j), Nat.add_sub_cancel_left] at hm
      obtain ⟨k, hk⟩ := ih hrest
      exact ⟨k + 1, by simp [List.take_append, hk]⟩

theorem boundary_le (s : Bytes) (n : ℕ) : boundary s n ≤ n := by
  induction n with
  | zero => exact le_rfl
  | succ n ih =>
    unfold boundary
    split_ifs
    · exact le_rfl
    · exact ih.trans n.le_succ

theorem boundary_start (s : Bytes) (n : ℕ) :
    boundary s n = 0 ∨ (s[boundary s n]?).any runeStart = true := by
  induction n with
  | zero => exact .inl rfl
  | succ n ih =>
    unfold boundary
    split_ifs with hstart
    · exact .inr hstart
    · exact ih

/-- The first characters of a text. -/
def Cut (t u : Bytes) : Prop :=
  ∃ s : String, ∃ k, utf8 s = t ∧ utf8 (String.ofList (s.toList.take k)) = u

theorem truncateUTF8_cut (s : String) (n : ℕ) : Cut (utf8 s) (truncateUTF8 (utf8 s) n) := by
  unfold truncateUTF8
  split_ifs
  · exact ⟨s, s.toList.length, rfl, by rw [List.take_length, String.ofList_toList]⟩
  · have hstart := boundary_start (utf8 s) n
    rw [utf8_eq_flatMap] at hstart
    obtain ⟨k, hk⟩ := take_of_runeStart hstart
    refine ⟨s, k, rfl, ?_⟩
    rw [utf8_eq_flatMap, String.toList_ofList, ← hk, utf8_eq_flatMap]

theorem truncateUTF8_length (s : Bytes) (n : ℕ) : (truncateUTF8 s n).length ≤ n := by
  unfold truncateUTF8
  split_ifs with hle
  · exact hle
  · rw [List.length_take]
    exact (min_le_left _ _).trans (boundary_le s n)

/-! ### Blocks -/

/-- The bytes of a block that are counted. -/
def Content.size : Content → ℕ
  | .text t => t.length
  | .image mime data => data.length + mime.length
  | .audio mime data => data.length + mime.length
  | .resourceLink uri name mime description =>
    uri.length + name.length + mime.length + description.length
  | .resource uri mime t blob => uri.length + mime.length + t.length + blob.length

/-- The counted bytes of blocks. -/
def size (l : List Content) : ℕ := (l.map Content.size).sum

/-- What a block of a supported type is if it is kept whole. -/
def Block.whole : Block → Option Content
  | .text t => some (.text t)
  | .image data mime => some (.image mime data)
  | .audio data mime => some (.audio mime data)
  | .resourceLink uri name mime description => some (.resourceLink uri name mime description)
  | .embeddedResource r => r.map fun r => .resource r.uri r.mimeType r.text r.blob
  | .other => none

/-- Its text is UTF-8. -/
def Block.Valid (b : Block) : Prop := ∀ t, b = .text t → ∃ s : String, utf8 s = t

/-- A block whole, or the first characters of a text. -/
def Kept (b : Block) (c : Content) : Prop :=
  b.whole = some c ∨ ∃ t u, b = .text t ∧ c = .text u ∧ Cut t u

/-- Blocks and bytes: what is missing shows in it. -/
def weight (l : List Content) : ℕ := (l.map fun c => c.size + 1).sum

/-- What blocks have become: `new` are the ones that were added. -/
structure Conversion (s s' : Converted) (blocks : List Block) (new : List Content) : Prop where
  out : s'.out = s.out ++ new
  budget : size new + s'.budget = s.budget
  kept : ∃ from', from'.Sublist blocks ∧ List.Forall₂ Kept from' new
  flag : s'.truncated = false → s.truncated = false ∧ new = blocks.filterMap Block.whole
  keeps : s'.truncated = true → s.truncated = true ∨
    weight new < weight (blocks.filterMap Block.whole)
  weight : weight new ≤ weight (blocks.filterMap Block.whole)

section

variable {s s' s'' : Converted} {b : Block} {blocks' : List Block} {new new' : List Content}

theorem Conversion.nil (s : Converted) : Conversion s s [] [] where
  out := (List.append_nil _).symm
  budget := Nat.zero_add _
  kept := ⟨[], .slnil, .nil⟩
  flag h := ⟨h, rfl⟩
  keeps := .inl
  weight := le_rfl

@[simp] theorem weight_nil : weight [] = 0 := rfl

@[simp] theorem weight_singleton (c : Content) : weight [c] = c.size + 1 := rfl

@[simp] theorem size_nil : size [] = 0 := rfl

@[simp] theorem size_singleton (c : Content) : size [c] = c.size := rfl

theorem weight_append (l l' : List Content) : weight (l ++ l') = weight l + weight l' := by
  simp [weight]

theorem Conversion.trans (h : Conversion s s' blocks new) (h' : Conversion s' s'' blocks' new') :
    Conversion s s'' (blocks ++ blocks') (new ++ new') where
  out := by rw [h'.out, h.out, List.append_assoc]
  budget := by
    have hsize : size (new ++ new') = size new + size new' := by simp [size]
    have := h.budget
    have := h'.budget
    omega
  kept := by
    obtain ⟨l, hl, hkept⟩ := h.kept
    obtain ⟨l', hl', hkept'⟩ := h'.kept
    exact ⟨l ++ l', hl.append hl', List.rel_append hkept hkept'⟩
  flag hflag := by
    obtain ⟨hmid, hnew'⟩ := h'.flag hflag
    obtain ⟨hs, hnew⟩ := h.flag hmid
    exact ⟨hs, by rw [List.filterMap_append, hnew, hnew']⟩
  keeps hcut := by
    have := h.weight
    have := h'.weight
    rw [List.filterMap_append, weight_append, weight_append]
    rcases h'.keeps hcut with hmid | hlt
    · exact (h.keeps hmid).imp_right fun hlt => by omega
    · exact .inr (by omega)
  weight := by
    have := h.weight
    have := h'.weight
    rw [List.filterMap_append, weight_append, weight_append]
    omega

/-- A block that is kept or dropped. -/
theorem Conversion.take (hwhole : b.whole = some c) (hn : n = c.size) :
    ∃ new, Conversion s (s.take n c) [b] new := by
  have hall : [b].filterMap Block.whole = [c] := by simp [hwhole]
  unfold Converted.take
  split_ifs with hlt
  · refine ⟨[], ⟨(List.append_nil _).symm, Nat.zero_add _, ⟨[], by simp, .nil⟩, by simp, fun _ =>
      ?_, ?_⟩⟩
    · right
      simp [hall]
    · simp
  · refine ⟨[c], ⟨rfl, ?_, ⟨[b], .refl _, .cons (.inl hwhole) .nil⟩, fun h => ⟨h, hall.symm⟩,
      .inl, ?_⟩⟩
    · rw [size_singleton]
      dsimp only
      omega
    · rw [hall]

theorem Conversion.unsupported (hwhole : b.whole = none) : Conversion s s [b] [] where
  out := (List.append_nil _).symm
  budget := Nat.zero_add _
  kept := ⟨[], List.nil_sublist _, .nil⟩
  flag h := ⟨h, by simp [hwhole]⟩
  keeps := .inl
  weight := Nat.zero_le _

/-- A text is cut if it has to be. -/
theorem Conversion.text (t : String) : ∃ new, Conversion s (convertBlock s (.text (utf8 t)))
    [.text (utf8 t)] new := by
  by_cases hlt : s.budget < (utf8 t).length
  · have hlen := truncateUTF8_length (utf8 t) s.budget
    have hcut := truncateUTF8_cut t s.budget
    have hne : utf8 t ≠ [] := by
      rintro h
      rw [h] at hlt
      exact Nat.not_lt_zero _ hlt
    simp only [convertBlock, hlt, if_true, hne, or_false]
    generalize truncateUTF8 (utf8 t) s.budget = u at *
    have htext : [Block.text (utf8 t)].filterMap Block.whole = [.text (utf8 t)] := rfl
    by_cases hu : u = []
    · subst hu
      refine ⟨[], ⟨by simp, by simp, ⟨[], by simp, .nil⟩, by simp, fun _ => .inr ?_, by simp⟩⟩
      simp [Block.whole]
    · refine ⟨[.text u], ⟨by simp [hu], ?_, ⟨[.text (utf8 t)], .refl _, ?_⟩, by simp, fun _ =>
        .inr ?_, ?_⟩⟩
      · rw [size_singleton, Content.size]
        dsimp only
        omega
      · exact .cons (.inr ⟨_, u, rfl, rfl, hcut⟩) .nil
      · rw [htext, weight_singleton, weight_singleton, Content.size, Content.size]
        omega
      · rw [htext, weight_singleton, weight_singleton, Content.size, Content.size]
        omega
  · have hwhole : utf8 t ≠ [] ∨ utf8 t = [] := (eq_or_ne _ _).symm
    simp only [convertBlock, hlt, if_false, hwhole, if_true, decide_false, Bool.or_false]
    refine ⟨[.text (utf8 t)], ⟨rfl, ?_, ⟨_, .refl _, .cons (.inl rfl) .nil⟩,
      fun h => ⟨h, rfl⟩, .inl, le_rfl⟩⟩
    rw [size_singleton, Content.size]
    dsimp only
    omega

/-- **One block.** -/
theorem convertBlock_spec (s : Converted) (hvalid : b.Valid) : ∃ new,
    Conversion s (convertBlock s b) [b] new := by
  cases b with
  | text t =>
    obtain ⟨u, rfl⟩ := hvalid t rfl
    exact Conversion.text u
  | image | audio | resourceLink => exact Conversion.take rfl rfl
  | embeddedResource r =>
    cases r with
    | none => exact ⟨[], Conversion.unsupported rfl⟩
    | some r => exact Conversion.take rfl rfl
  | other => exact ⟨[], Conversion.unsupported rfl⟩

/-- **Any blocks.** -/
theorem convertBlocks_spec : ∀ {blocks : List Block} {s : Converted}, (∀ b ∈ blocks, b.Valid) →
    ∃ new, Conversion s (blocks.foldl convertBlock s) blocks new := by
  intro blocks
  induction blocks with
  | nil =>
    intro s _
    exact ⟨[], Conversion.nil s⟩
  | cons b blocks ih =>
    intro s hvalid
    obtain ⟨hb, hblocks⟩ := List.forall_mem_cons.mp hvalid
    obtain ⟨new, hnew⟩ := convertBlock_spec s hb
    obtain ⟨rest, hrest⟩ := ih (s := convertBlock s b) hblocks
    exact ⟨new ++ rest, hnew.trans hrest⟩

end

/-! ### The whole result -/

/-- Blocks of a tool within a budget. -/
theorem convertContent_spec (hvalid : ∀ b ∈ blocks, b.Valid) (budget : ℕ) :
    size (convertContent blocks budget).out ≤ budget ∧
      (∃ from', from'.Sublist blocks ∧ List.Forall₂ Kept from' (convertContent blocks budget).out) ∧
      ((convertContent blocks budget).truncated = false ↔
        (convertContent blocks budget).out = blocks.filterMap Block.whole) := by
  obtain ⟨new, h⟩ := convertBlocks_spec (s := ⟨[], budget, false⟩) hvalid
  have hout : (convertContent blocks budget).out = new := h.out
  rw [hout]
  refine ⟨?_, h.kept, fun hflag => (h.flag hflag).2, fun hall => ?_⟩
  · have := h.budget
    dsimp only at this
    omega
  · -- A result that is marked misses something, and then it weighs less.
    by_contra hcut
    rcases h.keeps (Bool.eq_true_of_not_eq_false hcut) with hstart | hlt
    · exact Bool.false_ne_true hstart
    · rw [hall] at hlt
      exact lt_irrefl _ hlt

section

variable {V : Type} (marshal : V → Option Bytes) (value : Option V) (budget : ℕ)

theorem structured_size :
    (structured marshal value budget).1.length +
      (structured marshal value budget).2.2 ≤ budget := by
  unfold structured
  split
  · simp
  · split
    · simp
    · split_ifs
      · simp
      · dsimp only
        omega

/-- The structured value is not marked exactly if it is there, or there is none. -/
theorem structured_flag :
    (structured marshal value budget).2.1 = false ↔
      ∀ v, value = some v → marshal v = some (structured marshal value budget).1 := by
  cases value with
  | none => simp [structured]
  | some v =>
    cases hdata : marshal v with
    | none => simp [structured, hdata]
    | some data =>
      by_cases hlt : budget < data.length
      · have hne : data ≠ [] := by
          rintro rfl
          exact Nat.not_lt_zero _ hlt
        simp [structured, hdata, hlt, hne]
      · simp [structured, hdata, hlt]

end

/-- **A result** is within the budget, has the blocks of the tool in their order, whole or the first
characters of a text, and is marked exactly if something of it is missing. -/
theorem convertResult_bounded {V : Type} (marshal : V → Option Bytes) (value : Option V)
    (hvalid : ∀ b ∈ blocks, b.Valid) :
    (convertResult marshal value blocks).structuredContentJson.length +
        size (convertResult marshal value blocks).content ≤ maxResultBytes ∧
      (∃ from', from'.Sublist blocks ∧
        List.Forall₂ Kept from' (convertResult marshal value blocks).content) ∧
      ((convertResult marshal value blocks).truncated = false ↔
        (∀ v, value = some v →
          marshal v = some (convertResult marshal value blocks).structuredContentJson) ∧
        (convertResult marshal value blocks).content = blocks.filterMap Block.whole) := by
  have hsize := structured_size marshal value maxResultBytes
  have hflag := structured_flag marshal value maxResultBytes
  obtain ⟨hle, hkept, hcut⟩ := convertContent_spec hvalid
    (structured marshal value maxResultBytes).2.2
  refine ⟨?_, hkept, ?_⟩
  · exact (Nat.add_le_add_left hle _).trans hsize
  · exact Bool.or_eq_false_iff.trans (and_congr hflag hcut)

/-- A small result is passed on whole, but for a block of an unknown type. -/
theorem convertResult_bounded_small :
    (convertResult some (some [0x7b, 0x7d]) [.text (utf8 "aω"), .other]).content =
        [.text [0x61, 0xcf, 0x89]] ∧
      (convertResult some (some [0x7b, 0x7d]) [.text (utf8 "aω"), .other]).truncated = false := by
  refine ⟨by decide +kernel, (convertResult_bounded some _ ?_).2.2.mpr ⟨?_, rfl⟩⟩
  · intro b hb t ht
    subst ht
    simp only [List.mem_cons, Block.text.injEq, List.not_mem_nil, or_false, reduceCtorEq] at hb
    exact ⟨_, hb.symm⟩
  · intro v hv
    exact hv.symm

end Jarvis.Mcp
