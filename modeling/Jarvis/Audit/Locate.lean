import Jarvis.Audit.Verify

/-!
# The audit service: where a chain breaks

`Verify` goes on after the first row that does not fit, so that the number it reports comes from one
of three checks: of the numbers, of the hashes, of the head. It is the least number at which the
rows stop to follow from each other (`Ledger.BreaksAt`, `Ledger.reports_iff`). Below it the rows are
those that `Append` stored as far as one of them still has the hash that it gave
(`Ledger.Made.upTo_eq`).

A row that cannot be read makes `Verify` fail instead: then nothing is reported, whatever is broken.
-/

namespace Jarvis.Audit

open Table

variable {sha256 : Bytes → Fixed 32}

/-- What the columns and constraints of `events` say of the numbers: `bigint`, positive, unique. -/
structure Ledger.Numbered (l : Ledger) : Prop where
  keyed : Keyed Row.sequence l.events
  one_le : ∀ r ∈ l.events, 1 ≤ r.sequence
  lt : ∀ r ∈ l.events, r.sequence < 2 ^ 63

/-- The rows up to a number. -/
def Ledger.upTo (l : Ledger) (n : ℤ) : List Row :=
  (orderBy Row.sequence l.events).filter fun r => r.sequence ≤ n

section

variable (sha256)

/-- The hashes of the row are those after `prev`. -/
def Row.Fits (prev : Bytes) (r : Row) : Prop :=
  r.prevHash = prev ∧ ∃ e, r.scan = some e ∧ r.hash = Audit.hash sha256 prev e

/-- The rows before number `s` are all there and follow from each other, and number `s` does not. -/
def Ledger.BreaksAt (l : Ledger) (s : ℤ) : Prop :=
  ∃ es : List Event, s = es.length + 1 ∧ Linked sha256 [] 0 (l.upTo (s - 1)) es ∧
    ((∃ r ∈ l.events, r.sequence = s ∧ ¬ r.Fits sha256 (es.foldl (hash sha256) [])) ∨
      ((∀ r ∈ l.events, r.sequence ≠ s) ∧ ∃ r ∈ l.events, s < r.sequence) ∨
      ((∀ r ∈ l.events, r.sequence < s) ∧
        l.head.getD ⟨0, []⟩ ≠ ⟨s - 1, es.foldl (hash sha256) []⟩))

/-- `Verify` reports this number as the first broken one. -/
def Ledger.Reports (l : Ledger) (s : ℤ) : Prop :=
  ∃ v, l.verify sha256 = some (.ok v) ∧ v.firstBroken = s

end

/-! ### The first row that does not follow -/

theorem Ledger.upTo_append_rest {l : Ledger} (h : l.Numbered) (n : ℤ) :
    l.upTo n ++ l.rest n = orderBy Row.sequence l.events :=
  filter_le_append_filter_lt h.keyed.pairwise_orderBy n

theorem Linked.sequence_mem : ∀ {prev : Bytes} {n : ℤ} {es : List Event},
    Linked sha256 prev n rows es → ∀ r ∈ rows, n < r.sequence ∧ r.sequence ≤ n + es.length := by
  induction rows with
  | nil =>
    intro prev n es _ r hr
    exact (List.not_mem_nil hr).elim
  | cons r rows ih =>
    rintro prev n (_ | ⟨e, es⟩) h r' hr'
    · exact h.elim
    · obtain ⟨-, hseq, -, -, hrest⟩ := h
      rw [List.length_cons]
      push_cast
      rcases List.mem_cons.mp hr' with rfl | hr'
      · omega
      · have := ih hrest r' hr'
        omega

theorem Linked.scan_isSome : ∀ {prev : Bytes} {n : ℤ} {es : List Event},
    Linked sha256 prev n rows es → ∀ r ∈ rows, r.scan.isSome := by
  induction rows with
  | nil =>
    intro prev n es _ r hr
    exact (List.not_mem_nil hr).elim
  | cons r rows ih =>
    rintro prev n (_ | ⟨e, es⟩) h r' hr'
    · exact h.elim
    · obtain ⟨hscan, -, -, -, hrest⟩ := h
      rcases List.mem_cons.mp hr' with rfl | hr'
      · rw [hscan]
        rfl
      · exact ih hrest r' hr'

/-- Rows that follow from each other are no more than their numbers allow. -/
theorem Linked.length_lt : ∀ {prev : Bytes} {n : ℤ} {es : List Event},
    Linked sha256 prev n rows es → (∀ r ∈ rows, r.sequence < m) → n < m → n + es.length < m := by
  induction rows with
  | nil =>
    rintro prev n (_ | ⟨e, es⟩) h _ hn
    · simpa using hn
    · exact h.elim
  | cons r rows ih =>
    rintro prev n (_ | ⟨e, es⟩) h hlt _
    · exact h.elim
    · obtain ⟨-, hseq, -, -, hrest⟩ := h
      have hn : n + 1 < m := hseq ▸ hlt r List.mem_cons_self
      have := ih hrest (fun r hr => hlt r (List.mem_cons_of_mem _ hr)) hn
      rw [List.length_cons]
      push_cast
      omega

variable (sha256) in
/-- Rows follow from each other, or one of them is the first that does not. -/
theorem linked_or_breaks (rows : List Row) : ∀ (prev : Bytes) (n : ℤ),
    (∃ es, Linked sha256 prev n rows es) ∨
    ∃ before r after es, rows = before ++ r :: after ∧ Linked sha256 prev n before es ∧
      (r.sequence ≠ n + es.length + 1 ∨ ¬ r.Fits sha256 (es.foldl (hash sha256) prev)) := by
  induction rows with
  | nil => exact fun prev n => .inl ⟨[], trivial⟩
  | cons r rows ih =>
    intro prev n
    by_cases hr : r.sequence = n + 1 ∧ r.Fits sha256 prev
    · obtain ⟨hseq, hprev, e, hscan, hhash⟩ := hr
      rcases ih (hash sha256 prev e) (n + 1) with ⟨es, hes⟩ | ⟨before, r', after, es, rfl, hes, hr'⟩
      · exact .inl ⟨e :: es, hscan, hseq, hprev, hhash, hes⟩
      · refine .inr ⟨r :: before, r', after, e :: es, rfl, ⟨hscan, hseq, hprev, hhash, hes⟩, ?_⟩
        rw [List.foldl_cons, List.length_cons]
        push_cast
        rwa [add_comm (es.length : ℤ) 1, ← add_assoc]
    · refine .inr ⟨[], r, rows, [], rfl, trivial, ?_⟩
      rw [not_and_or] at hr
      simpa using hr

variable {l : Ledger} {s : ℤ}

section

variable (h : l.Numbered)

include h

/-- A chain breaks at the first of its rows that does not follow. -/
theorem Ledger.breaksAt_of_row {before after : List Row} {es : List Event}
    (hrows : orderBy Row.sequence l.events = before ++ r :: after)
    (hes : Linked sha256 [] 0 before es)
    (hbreak : r.sequence ≠ es.length + 1 ∨ ¬ r.Fits sha256 (es.foldl (hash sha256) [])) :
    l.BreaksAt sha256 (es.length + 1) := by
  have hpair := h.keyed.pairwise_orderBy
  rw [hrows, List.pairwise_append, List.pairwise_cons] at hpair
  obtain ⟨-, ⟨hafter, -⟩, hbefore⟩ := hpair
  have hmem : ∀ r', r' ∈ l.events ↔ r' ∈ before ∨ r' = r ∨ r' ∈ after := by
    intro r'
    rw [← (mem_orderBy : r' ∈ orderBy Row.sequence l.events ↔ _), hrows,
      List.mem_append, List.mem_cons]
  have hr : r ∈ l.events := (hmem r).mpr (.inr (.inl rfl))
  have hpast := hes.length_lt (fun r' hr' => hbefore r' hr' r List.mem_cons_self) (h.one_le r hr)
  have hupTo : l.upTo (es.length + 1 - 1) = before := by
    rw [Ledger.upTo, hrows, List.filter_append, List.filter_eq_self.mpr, List.filter_eq_nil_iff.mpr,
      List.append_nil]
    · intro r' hr'
      rw [decide_eq_true_eq]
      rcases List.mem_cons.mp hr' with rfl | hr'
      · omega
      · have := hafter r' hr'
        omega
    · intro r' hr'
      have := hes.sequence_mem r' hr'
      exact decide_eq_true (by omega)
  refine ⟨es, rfl, hupTo ▸ hes, ?_⟩
  by_cases hrs : r.sequence = es.length + 1
  · exact .inl ⟨r, hr, hrs, hbreak.resolve_left (not_not.mpr hrs)⟩
  · refine .inr (.inl ⟨fun r' hr' => ?_, r, hr, by omega⟩)
    rcases (hmem r').mp hr' with hr' | rfl | hr'
    · have := hes.sequence_mem r' hr'
      omega
    · exact hrs
    · have := hafter r' hr'
      omega

omit h in
/-- A chain all of whose rows follow breaks at another head. -/
theorem Ledger.breaksAt_of_head (hes : Linked sha256 [] 0 (orderBy Row.sequence l.events) es)
    (hhead : l.head.getD ⟨0, []⟩ ≠ ⟨es.length, es.foldl (hash sha256) []⟩) :
    l.BreaksAt sha256 (es.length + 1) := by
  have hbelow : ∀ r ∈ l.events, r.sequence < es.length + 1 := by
    intro r hr
    have := hes.sequence_mem r (mem_orderBy.mpr hr)
    omega
  have hupTo : l.upTo (es.length + 1 - 1) = orderBy Row.sequence l.events := by
    refine List.filter_eq_self.mpr fun r hr => decide_eq_true ?_
    have := hbelow r (mem_orderBy.mp hr)
    omega
  refine ⟨es, rfl, hupTo ▸ hes, .inr (.inr ⟨hbelow, ?_⟩)⟩
  rwa [add_sub_cancel_right]

/-- There are no other breaks. -/
theorem Ledger.BreaksAt.row_or_head (hbreaks : l.BreaksAt sha256 s) :
    (∃ before r after es, orderBy Row.sequence l.events = before ++ r :: after ∧
      Linked sha256 [] 0 before es ∧ s = es.length + 1 ∧
      (r.sequence ≠ s ∨ ¬ r.Fits sha256 (es.foldl (hash sha256) []))) ∨
    ∃ es, Linked sha256 [] 0 (orderBy Row.sequence l.events) es ∧ s = es.length + 1 ∧
      l.head.getD ⟨0, []⟩ ≠ ⟨es.length, es.foldl (hash sha256) []⟩ := by
  obtain ⟨es, hs, hes, hbreak⟩ := hbreaks
  have hsplit := Ledger.upTo_append_rest h (s - 1)
  cases hcase : l.rest (s - 1) with
  | nil =>
    -- no row from `s` on: only the head is left
    rw [hcase, List.append_nil] at hsplit
    have hbelow : ∀ r ∈ l.events, r.sequence < s := by
      intro r hr
      rw [← (mem_orderBy : r ∈ orderBy Row.sequence l.events ↔ _), ← hsplit] at hr
      have := of_decide_eq_true (List.mem_filter.mp hr).2
      omega
    refine .inr ⟨es, hsplit ▸ hes, hs, ?_⟩
    rcases hbreak with ⟨r, hr, hseq, -⟩ | ⟨-, r, hr, hlt⟩ | ⟨-, hhead⟩
    · exact absurd (hbelow r hr) (by omega)
    · exact absurd (hbelow r hr) (by omega)
    · rwa [show s - 1 = es.length by omega] at hhead
  | cons r after =>
    rw [hcase] at hsplit
    obtain ⟨hr, hlt⟩ := List.mem_filter.mp (hcase ▸ List.mem_cons_self : r ∈ l.rest (s - 1))
    have hr := mem_orderBy.mp hr
    have hlt := of_decide_eq_true hlt
    refine .inl ⟨_, r, after, es, hsplit.symm, hes, hs, ?_⟩
    rcases hbreak with ⟨r', hr', hseq, hfits⟩ | ⟨hnone, -⟩ | ⟨hbelow, -⟩
    · by_cases hrs : r.sequence = s
      · exact .inr (Keyed.eq h.keyed hr hr' (hrs.trans hseq.symm) ▸ hfits)
      · exact .inl hrs
    · exact .inl (hnone r hr)
    · exact absurd (hbelow r hr) (by omega)

variable (sha256) in
/-- A chain is intact or breaks somewhere. -/
theorem Ledger.linked_or_breaksAt :
    (∃ es, Linked sha256 [] 0 (orderBy Row.sequence l.events) es ∧
      l.head.getD ⟨0, []⟩ = ⟨es.length, es.foldl (hash sha256) []⟩) ∨
    ∃ s, l.BreaksAt sha256 s := by
  rcases linked_or_breaks sha256 (orderBy Row.sequence l.events) [] 0 with
    ⟨es, hes⟩ | ⟨before, r, after, es, hrows, hes, hbreak⟩
  · by_cases hhead : l.head.getD ⟨0, []⟩ = ⟨es.length, es.foldl (hash sha256) []⟩
    · exact .inl ⟨es, hes, hhead⟩
    · exact .inr ⟨_, Ledger.breaksAt_of_head hes hhead⟩
  · rw [zero_add] at hbreak
    exact .inr ⟨_, Ledger.breaksAt_of_row h hrows hes hbreak⟩

end

/-! ### What is reported -/

/-- Once something is broken, the number stays, as long as the rows can be read. -/
theorem foldlM_of_broken {rows : List Row} : ∀ {x : Verification × Bytes},
    (∀ r ∈ rows, r.scan.isSome) → x.1.intact = false →
    ∃ y, rows.foldlM (verifyRow sha256) x = .ok y ∧ y.1.intact = false ∧
      y.1.firstBroken = x.1.firstBroken := by
  induction rows with
  | nil => exact fun {x} _ hx => ⟨x, rfl, hx, rfl⟩
  | cons r rows ih =>
    intro x hread hx
    obtain ⟨e, he⟩ := Option.isSome_iff_exists.mp (hread r List.mem_cons_self)
    have hstep : verifyRow sha256 x r =
        .ok ({ x.1 with events := r.sequence }, hash sha256 x.2 e) := by
      simp [verifyRow, he, okOr, Verification.broken, hx]
    obtain ⟨y, hy, hintact, hfirst⟩ :=
      ih (x := ({ x.1 with events := r.sequence }, hash sha256 x.2 e))
      (fun r hr => hread r (List.mem_cons_of_mem _ hr)) hx
    refine ⟨y, ?_, hintact, hfirst⟩
    rw [List.foldlM_cons, hstep, ok_bind, hy]

/-- A row that does not follow is reported under the number that should have been there. -/
theorem verifyRow_of_breaks (hread : r.scan.isSome) (hv : v.intact = true) (h₀ : 0 ≤ v.events)
    (hlt : v.events < r.sequence) (hr : r.sequence < 2 ^ 63)
    (hbreak : r.sequence ≠ v.events + 1 ∨ ¬ r.Fits sha256 prev) :
    ∃ y, verifyRow sha256 (v, prev) r = .ok y ∧ y.1.intact = false ∧
      y.1.firstBroken = v.events + 1 := by
  obtain ⟨e, he⟩ := Option.isSome_iff_exists.mp hread
  have hnext : int64 (v.events + 1) = v.events + 1 := int64_of_lt (by omega) (by omega)
  simp only [verifyRow, he, okOr, ok_bind, hnext]
  refine ⟨_, rfl, ?_⟩
  by_cases hseq : r.sequence = v.events + 1
  · have hfits : r.prevHash ≠ prev ∨ r.hash ≠ hash sha256 prev e := by
      by_contra hboth
      rw [not_or, not_not, not_not] at hboth
      exact hbreak.elim (absurd hseq) fun hno => hno ⟨hboth.1, e, he, hboth.2⟩
    simp [hseq, hfits, Verification.broken, hv]
  · have hgap : (if r.sequence ≠ v.events + 1 then v.broken (v.events + 1) else v) =
        { v with intact := false, firstBroken := v.events + 1 } := by
      rw [if_pos hseq, Verification.broken, if_pos hv]
    rw [hgap]
    simp [Verification.broken]

theorem Ledger.compareHead_of_broken (hx : x.1.intact = false) :
    (l.compareHead x).firstBroken = x.1.firstBroken := by
  simp [compareHead, Verification.broken, hx]

/-- `Verify` reports where a chain breaks whose rows can be read. -/
theorem Ledger.BreaksAt.reports (h : l.Numbered) (hread : ∀ r ∈ l.events, r.scan.isSome)
    (hbreaks : l.BreaksAt sha256 s) : l.Reports sha256 (int64 s) := by
  rw [Reports, verify_eq h.keyed h.one_le]
  rcases hbreaks.row_or_head h with ⟨before, r, after, es, hrows, hes, rfl, hbreak⟩ |
    ⟨es, hes, rfl, hhead⟩
  · have hmem : ∀ {r'}, r' ∈ before ++ r :: after → r' ∈ l.events := fun hr' =>
      mem_orderBy.mp (hrows ▸ hr')
    have hr : r ∈ l.events := hmem (by simp)
    have hpair := h.keyed.pairwise_orderBy
    rw [hrows, List.pairwise_append] at hpair
    have hlt := hes.length_lt (fun r' hr' => hpair.2.2 r' hr' r List.mem_cons_self) (h.one_le r hr)
    have hmax := h.lt r hr
    obtain ⟨y, hy, hyintact, hyfirst⟩ := @verifyRow_of_breaks sha256
      ⟨true, es.length, 0, []⟩ _ _ (hread r hr) rfl (by dsimp only; omega) (by dsimp only; omega)
      hmax hbreak
    obtain ⟨z, hz, hzintact, hzfirst⟩ := @foldlM_of_broken sha256 after y
      (fun r' hr' => hread r' (hmem (by simp [hr']))) hyintact
    rw [hrows, List.foldlM_append, foldlM_of_linked_first hes (by omega), ok_bind,
      List.foldlM_cons, hy, ok_bind, hz]
    refine ⟨_, rfl, ?_⟩
    rw [compareHead_of_broken hzintact, hzfirst, hyfirst, int64_of_lt (by omega) (by omega)]
  · have hlen := hes.length_lt (fun r hr => h.lt r (mem_orderBy.mp hr)) (by norm_num)
    rw [foldlM_of_linked_first hes (by omega)]
    refine ⟨_, rfl, ?_⟩
    have hne : (l.head.getD ⟨0, []⟩).lastSequence ≠ es.length ∨
        (l.head.getD ⟨0, []⟩).lastHash ≠ es.foldl (hash sha256) [] := by
      by_contra hboth
      rw [not_or, not_not, not_not] at hboth
      exact hhead (by rw [← hboth.1, ← hboth.2])
    rw [compareHead]
    dsimp only
    rw [if_pos hne, Verification.broken, if_pos rfl]

/-- Nothing is reported of an intact chain. -/
theorem Ledger.not_reports_of_linked (h : l.Numbered)
    (hes : Linked sha256 [] 0 (orderBy Row.sequence l.events) es)
    (hhead : l.head.getD ⟨0, []⟩ = ⟨es.length, es.foldl (hash sha256) []⟩) (hs : 1 ≤ s) :
    ¬ l.Reports sha256 s := by
  rintro ⟨v, hv, rfl⟩
  have hlen := hes.length_lt (fun r hr => h.lt r (mem_orderBy.mp hr)) (by norm_num)
  rw [verify_eq h.keyed h.one_le, foldlM_of_linked_first hes (by omega)] at hv
  obtain rfl := Except.ok.inj (Option.some.inj hv)
  simp [compareHead, hhead] at hs

theorem Ledger.Reports.unique (hs : l.Reports sha256 s) (hs' : l.Reports sha256 s') : s = s' := by
  obtain ⟨v, hv, rfl⟩ := hs
  obtain ⟨v', hv', rfl⟩ := hs'
  obtain rfl := Except.ok.inj (Option.some.inj (hv.symm.trans hv'))
  rfl

/-- `Verify` returns only if it can read all rows. -/
theorem scan_of_foldlM {rows : List Row} : ∀ {x y : Verification × Bytes},
    rows.foldlM (verifyRow sha256) x = .ok y → ∀ r ∈ rows, r.scan.isSome := by
  induction rows with
  | nil =>
    intro x y _ r hr
    exact (List.not_mem_nil hr).elim
  | cons r rows ih =>
    intro x y h r' hr'
    rw [List.foldlM_cons] at h
    obtain ⟨z, hz, h⟩ := bind_eq_ok.mp h
    obtain ⟨e, he, -⟩ := verifyRow_eq_ok hz
    rcases List.mem_cons.mp hr' with rfl | hr'
    · rw [he]
      rfl
    · exact ih h r' hr'

theorem Ledger.Reports.scan_isSome (h : l.Numbered) (hs : l.Reports sha256 s) :
    ∀ r ∈ l.events, r.scan.isSome := by
  obtain ⟨v, hv, -⟩ := hs
  rw [verify_eq h.keyed h.one_le] at hv
  cases hfold : (orderBy Row.sequence l.events).foldlM (verifyRow sha256)
      ((⟨true, 0, 0, []⟩, []) : Verification × Bytes) with
  | error e =>
    rw [hfold] at hv
    cases Option.some.inj hv
  | ok x => exact fun r hr => scan_of_foldlM hfold r (mem_orderBy.mpr hr)

/-- The number after the last one that a `bigint` holds is reported as a negative one. -/
theorem int64_eq (h₁ : 1 ≤ n) (h : n ≤ 2 ^ 63) (hs : 1 ≤ s) (heq : int64 n = s) : n = s := by
  rw [int64, Int.bmod_def] at heq
  omega

theorem Ledger.BreaksAt.le (h : l.Numbered) (hbreaks : l.BreaksAt sha256 s) :
    1 ≤ s ∧ s ≤ 2 ^ 63 := by
  obtain ⟨es, rfl, hes, -⟩ := hbreaks
  have := hes.length_lt (fun r hr => h.lt r (mem_orderBy.mp (List.mem_filter.mp hr).1))
    (by norm_num)
  omega

theorem Ledger.Reports.breaksAt (h : l.Numbered) (hs : 1 ≤ s) (hreports : l.Reports sha256 s) :
    l.BreaksAt sha256 s := by
  rcases Ledger.linked_or_breaksAt sha256 h with ⟨es, hes, hhead⟩ | ⟨s', hs'⟩
  · exact absurd hreports (not_reports_of_linked h hes hhead hs)
  · have hint := (hs'.reports h (hreports.scan_isSome h)).unique hreports
    obtain rfl := int64_eq (hs'.le h).1 (hs'.le h).2 hs hint
    exact hs'

/-- `Verify` reports every break where it is, exactly if it can read all rows. -/
theorem Ledger.reports_iff (h : l.Numbered) :
    (∀ s, 1 ≤ s → s < 2 ^ 63 → (l.Reports sha256 s ↔ l.BreaksAt sha256 s)) ↔
      ∀ r ∈ l.events, r.scan.isSome := by
  constructor
  · intro hall
    rcases Ledger.linked_or_breaksAt sha256 h with ⟨es, hes, -⟩ | ⟨s, hs⟩
    · exact fun r hr => hes.scan_isSome r (mem_orderBy.mpr hr)
    · by_cases hlt : s < 2 ^ 63
      · exact ((hall s (hs.le h).1 hlt).mpr hs).scan_isSome h
      · -- all numbers of a `bigint` are there: only the head can be wrong
        rcases hs.row_or_head h with ⟨before, r, after, es, hrows, hes, rfl, -⟩ | ⟨es, hes, -⟩
        · have hr : r ∈ l.events := mem_orderBy.mp (by rw [hrows]; simp)
          have hpair := h.keyed.pairwise_orderBy
          rw [hrows, List.pairwise_append] at hpair
          have := hes.length_lt (fun r' hr' =>
            hpair.2.2 r' hr' r List.mem_cons_self) (h.one_le r hr)
          have := h.lt r hr
          omega
        · exact fun r hr => hes.scan_isSome r (mem_orderBy.mpr hr)
  · intro hread s hs hlt
    refine ⟨Ledger.Reports.breaksAt h hs, fun hbreaks => ?_⟩
    have hreports := hbreaks.reports h hread
    rwa [int64_of_lt (by omega) hlt] at hreports

/-! ### The rows before the break -/

theorem Linked.map_scan : ∀ {prev : Bytes} {n : ℤ} {es : List Event},
    Linked sha256 prev n rows es → rows.map Row.scan = es.map some := by
  induction rows with
  | nil =>
    rintro prev n (_ | ⟨e, es⟩) h
    · rfl
    · exact h.elim
  | cons r rows ih =>
    rintro prev n (_ | ⟨e, es⟩) h
    · exact h.elim
    · rw [List.map_cons, List.map_cons, h.1, ih h.2.2.2.2]

theorem Linked.of_prefix (hp : rows' <+: rows) :
    ∀ {prev : Bytes} {n : ℤ} {es : List Event}, Linked sha256 prev n rows es →
      ∃ es', Linked sha256 prev n rows' es' := by
  induction rows' generalizing rows with
  | nil => exact fun _ => ⟨[], trivial⟩
  | cons r rows' ih =>
    obtain ⟨after, rfl⟩ := hp
    rintro prev n (_ | ⟨e, es⟩) h
    · exact h.elim
    · obtain ⟨hscan, hseq, hprev, hhash, hrest⟩ := h
      obtain ⟨es', hes'⟩ := ih (List.prefix_append _ after) hrest
      exact ⟨e :: es', hscan, hseq, hprev, hhash, hes'⟩

/-- The last of the rows has the hash of all events. -/
theorem Linked.hash_eq : ∀ {prev : Bytes} {n : ℤ} {es : List Event},
    Linked sha256 prev n rows es → r ∈ rows → r.sequence = n + es.length →
    r.hash = es.foldl (hash sha256) prev := by
  induction rows with
  | nil =>
    intro prev n es _ hr
    exact (List.not_mem_nil hr).elim
  | cons r' rows ih =>
    rintro prev n (_ | ⟨e, es⟩) h hr hlast
    · exact h.elim
    · obtain ⟨-, hseq, -, hhash, hrest⟩ := h
      rw [List.length_cons] at hlast
      push_cast at hlast
      rw [List.foldl_cons]
      rcases List.mem_cons.mp hr with rfl | hr
      · obtain rfl : es = [] := List.length_eq_zero_iff.mp (by omega)
        exact hhash
      · exact ih hrest hr (by omega)

theorem hashed_before (hp : rows' <+: rows) :
    ∀ {prev : Bytes}, hashed sha256 prev rows' <+: hashed sha256 prev rows := by
  induction rows' generalizing rows with
  | nil => exact List.nil_prefix
  | cons r rows' ih =>
    obtain ⟨after, rfl⟩ := hp
    intro prev
    rw [List.cons_append, hashed, hashed]
    cases r.scan with
    | none => exact List.prefix_rfl
    | some e => exact List.prefix_cons_inj _ |>.mpr (ih (List.prefix_append _ after))

theorem Ledger.upTo_prefix (h : l.Numbered) {k n : ℤ} (hk : k ≤ n) : l.upTo k <+: l.upTo n := by
  refine List.prefix_of_prefix_length_le ⟨_, upTo_append_rest h k⟩ ⟨_, upTo_append_rest h n⟩ ?_
  rw [upTo, upTo, ← List.countP_eq_length_filter, ← List.countP_eq_length_filter]
  refine List.countP_mono_left fun r _ hr => decide_eq_true ?_
  exact (of_decide_eq_true hr).trans hk

theorem Ledger.mem_upTo : r ∈ l.upTo n ↔ r ∈ l.events ∧ r.sequence ≤ n := by
  rw [upTo, List.mem_filter, mem_orderBy, decide_eq_true_eq]

/-- Rows up to one of them that follow from each other: they are as many as its number says, and it
has the hash of all their events. -/
theorem Ledger.hash_of_linked_upTo (hr : r ∈ l.events) (hone : 1 ≤ r.sequence)
    (hes : Linked sha256 [] 0 (l.upTo r.sequence) es) :
    r.sequence = es.length ∧ r.hash = es.foldl (hash sha256) [] := by
  have hmem : r ∈ l.upTo r.sequence := mem_upTo.mpr ⟨hr, le_rfl⟩
  have hle := hes.sequence_mem r hmem
  have hlt := hes.length_lt (m := r.sequence + 1)
    (fun r' hr' => Int.lt_add_one_of_le (mem_upTo.mp hr').2) (by omega)
  exact ⟨by omega, hes.hash_eq hmem (by omega)⟩

theorem Ledger.Made.numbered_rows {tenant : UUID} {l : Ledger} {es : List Event}
    (h : l.Made sha256 tenant es) : l.Numbered :=
  ⟨h.keyed, h.one_le, h.sequence_lt⟩

/-- Two chains up to a row that has one hash in both: the events are the same, and so are the rows,
except for what is lost of `details`. -/
theorem Ledger.Made.upTo_eq {tenant : UUID} {l₀ : Ledger} {es₀ : List Event}
    (h₀ : l₀.Made sha256 tenant es₀) {n : ℤ} {es : List Event} (h : l.Numbered)
    (hes : Linked sha256 [] 0 (l.upTo n) es)
    (hsha : Set.InjOn sha256 { b | b ∈ l₀.hashed sha256 ∨ b ∈ l.hashed sha256 })
    {r r₀ : Row} (hr : r ∈ l.events) (hn : r.sequence ≤ n) (hr₀ : r₀ ∈ l₀.events)
    (hseq : r.sequence = r₀.sequence) (hhash : r.hash = r₀.hash) :
    (l.upTo r.sequence).map Row.scan = (l₀.upTo r.sequence).map Row.scan ∧
    (l.upTo r.sequence = l₀.upTo r.sequence ↔
      ∀ r' ∈ l.upTo r.sequence, r'.details.plain = true) := by
  have hpre := Ledger.upTo_prefix h hn
  have hpre₀ : l₀.upTo r.sequence <+: orderBy Row.sequence l₀.events :=
    ⟨_, upTo_append_rest h₀.numbered_rows _⟩
  obtain ⟨fs, hfs⟩ := Linked.of_prefix hpre hes
  obtain ⟨fs₀, hfs₀⟩ := Linked.of_prefix hpre₀ h₀.linked
  obtain ⟨hlen, hlast⟩ := hash_of_linked_upTo hr (h.one_le r hr) hfs
  obtain ⟨hlen₀, hlast₀⟩ := hash_of_linked_upTo hr₀ (h₀.one_le r₀ hr₀) (hseq ▸ hfs₀)
  have hinj : Set.InjOn sha256 { b | b ∈ Audit.hashed sha256 [] (l.upTo r.sequence) ∨
      b ∈ Audit.hashed sha256 [] (l₀.upTo r.sequence) } := by
    refine hsha.mono fun b hb => hb.symm.imp ?_ ?_
    · exact fun hb => (hashed_before hpre₀).subset hb
    · exact fun hb => (hashed_before ⟨_, upTo_append_rest h _⟩).subset hb
  obtain rfl : fs = fs₀ := hfs.events_eq hfs₀ hinj (by omega) (hlast ▸ hhash ▸ hlast₀)
  have hplain₀ : ∀ r' ∈ l₀.upTo r.sequence, r'.details.plain = true := by
    intro r' hr'
    refine h₀.linked.eq_chainRows_iff.mp ?_ r' (hpre₀.subset hr')
    rw [orderBy_of_pairwise h₀.pairwise, h₀.rows]
  refine ⟨hfs.map_scan.trans hfs₀.map_scan.symm, ?_⟩
  rw [hfs₀.eq_chainRows_iff.mpr hplain₀]
  exact hfs.eq_chainRows_iff

/-- **Where a chain breaks.** Of any rows and any head, `Verify` reports the least number that does
not follow from the ones before it, exactly if it can read all rows. If a row before that number
still has the hash that `Append` gave it, then all rows up to it hold the events that were appended;
they are the rows that were stored exactly if `details` is an object of strings in each of them. -/
theorem break_located (h : l.Numbered) :
    ((∀ s, 1 ≤ s → s < 2 ^ 63 → (l.Reports sha256 s ↔ l.BreaksAt sha256 s)) ↔
      ∀ r ∈ l.events, r.scan.isSome) ∧
    ∀ db, Appended sha256 db → ∀ tenant,
      Set.InjOn sha256 { b | b ∈ (db tenant).hashed sha256 ∨ b ∈ l.hashed sha256 } →
      ∀ s, 1 ≤ s → l.Reports sha256 s → ∀ r ∈ l.events, ∀ r₀ ∈ (db tenant).events,
        r.sequence = r₀.sequence → r.hash = r₀.hash → r.sequence < s →
        (l.upTo r.sequence).map Row.scan = ((db tenant).upTo r.sequence).map Row.scan ∧
        (l.upTo r.sequence = (db tenant).upTo r.sequence ↔
          ∀ r' ∈ l.upTo r.sequence, r'.details.plain = true) := by
  refine ⟨Ledger.reports_iff h, ?_⟩
  intro db hdb tenant hsha s hs hreports r hr r₀ hr₀ hseq hhash hlt
  obtain ⟨es₀, hes₀⟩ := hdb.made tenant
  obtain ⟨es, -, hes, -⟩ := hreports.breaksAt h hs
  exact hes₀.upTo_eq h hes hsha hr (by omega) hr₀ hseq hhash

/-- The row of a single event. -/
def signInRow : Row := (signIn .empty).row [] (hash zeros [] (signIn .empty))

theorem linked_signInRow : Linked zeros [] 0 [signInRow] [signIn .empty] :=
  ⟨rfl, rfl, rfl, rfl, trivial⟩

/-- The head of a trail of one event is gone. -/
theorem break_located_without_head :
    Ledger.Reports zeros ⟨none, [signInRow]⟩ 2 ∧
    Ledger.upTo ⟨none, [signInRow]⟩ 1 =
      (oneEvent zeros (signIn .empty) (signIn .empty).tenantId).upTo 1 := by
  have hdb : oneEvent zeros (signIn .empty) (signIn .empty).tenantId =
      ⟨some ⟨1, signInRow.hash⟩, [signInRow]⟩ := Function.update_self ..
  have hread : ∀ r ∈ [signInRow], r.scan.isSome := List.forall_mem_singleton.mpr rfl
  have hbreaks : Ledger.BreaksAt zeros ⟨none, [signInRow]⟩ 2 := by
    refine Ledger.breaksAt_of_head (l := ⟨none, [signInRow]⟩) linked_signInRow ?_
    exact fun hhead => absurd (congrArg Head.lastSequence hhead) (by decide)
  obtain ⟨hfirst, hrows⟩ := @break_located zeros ⟨none, [signInRow]⟩
    ⟨List.nodup_singleton _, List.forall_mem_singleton.mpr le_rfl,
      List.forall_mem_singleton.mpr (by decide)⟩
  have hreports := (hfirst.mpr hread 2 (by decide) (by decide)).mpr hbreaks
  refine ⟨hreports, ?_⟩
  refine (hrows _ (appended_oneEvent (by decide +kernel) rfl) (signIn .empty).tenantId
    (injOn_single hashed_oneEvent rfl) 2 (by decide) hreports signInRow List.mem_cons_self signInRow
    ?_ rfl rfl (by decide)).2.mpr ?_
  · rw [hdb]
    exact List.mem_cons_self
  · intro r hr
    obtain rfl := List.mem_singleton.mp (Ledger.mem_upTo.mp hr).1
    exact plain_jsonb _

/-- In a trail of one event, `details` is replaced by an array: the chain breaks at this row, but
`Verify` cannot read it and reports nothing. -/
theorem unreadable_row_not_located :
    Ledger.BreaksAt zeros ⟨some ⟨1, signInRow.hash⟩,
      [{ signInRow with details := ⟨.arr [], nofun⟩ }]⟩ 1 ∧
    Ledger.verify zeros ⟨some ⟨1, signInRow.hash⟩,
      [{ signInRow with details := ⟨.arr [], nofun⟩ }]⟩ =
      some (.error .scan) := by
  have hscan : Row.scan { signInRow with details := ⟨.arr [], nofun⟩ } = none := rfl
  refine ⟨⟨[], rfl, trivial, .inl ⟨_, List.mem_cons_self, rfl, ?_⟩⟩, ?_⟩
  · rintro ⟨-, e, he, -⟩
    cases hscan.symm.trans he
  · refine (Ledger.verify_eq ?_ ?_).trans rfl
    · exact List.nodup_singleton _
    · exact List.forall_mem_singleton.mpr le_rfl

end Jarvis.Audit
