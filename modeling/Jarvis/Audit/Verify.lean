import Jarvis.Audit.Trail
import Jarvis.HashChain
import Jarvis.Paging

/-!
# The audit service: changes are found

`Verify` goes through the rows of a tenant in the order of their numbers, whatever the pages
(`Ledger.verify_eq`), and reports the chain intact exactly if every row follows from the one before
it and the last one is the head's (`Linked`). The head then determines the events, and the events
the rows, except for what reading `details` into a `map[string]string` loses: `null` is read as the
empty map, and a member that is `null` as the empty string (`Jsonb.plain`).
-/

namespace Jarvis.Audit

open Table

/-! ### Reading a row back -/

/-- Source: what `Append` writes into `details`, an object of strings -/
def Jsonb.plain (j : Jsonb) : Bool :=
  match j.value with
  | .obj kvs => kvs.all fun kv => match kv.2 with
      | .str _ => true
      | _ => false
  | _ => false

variable {d : Details} {j : Jsonb} {r : Row} {e : Event} {es es' : List Event} {rows : List Row}
  {n : ℤ} {v : Verification} {x y : Verification × Bytes} {l : Ledger}

theorem Details.ext_entries (h : d.entries = d'.entries) : d = d' := by
  cases d
  cases d'
  cases h
  rfl

theorem scanDetails_eq_some :
    scanDetails j = some d ↔ (j.value = .null ∧ d.entries = []) ∨
      ∃ kvs, j.value = .obj kvs ∧ kvs.mapM scanValue = some d.entries := by
  unfold scanDetails
  split
  next hj =>
    rw [hj]
    refine ⟨fun h => .inl ⟨rfl, ?_⟩, ?_⟩
    · cases h
      rfl
    · rintro (⟨-, hd⟩ | ⟨kvs, hkvs, -⟩)
      · exact congrArg some (Details.ext_entries hd.symm)
      · cases hkvs
  next kvs hj =>
    split
    next hes =>
      refine ⟨nofun, ?_⟩
      rintro (⟨h, -⟩ | ⟨kvs', hkvs, h⟩)
      · cases hj.symm.trans h
      · obtain rfl := Json.obj.inj (hj.symm.trans hkvs)
        exact absurd (hes.symm.trans h) nofun
    next es hes =>
      refine ⟨fun h => .inr ⟨kvs, hj, ?_⟩, ?_⟩
      · cases h
        exact hes
      · rintro (⟨h, -⟩ | ⟨kvs', hkvs, h⟩)
        · cases hj.symm.trans h
        · obtain rfl := Json.obj.inj (hj.symm.trans hkvs)
          exact congrArg some (Details.ext_entries (Option.some.inj (hes.symm.trans h)))
  next hnull hobj =>
    refine ⟨nofun, ?_⟩
    rintro (⟨h, -⟩ | ⟨kvs, h, -⟩)
    · exact (hnull h).elim
    · exact (hobj kvs h).elim

theorem mapM_scanValue_str (es : List (String × String)) :
    (es.map fun kv => (kv.1, Json.str kv.2)).mapM scanValue = some es := by
  induction es with
  | nil => rfl
  | cons kv es ih =>
    rw [List.map_cons, List.mapM_cons, ih]
    rfl

theorem scanDetails_jsonb (d : Details) : scanDetails d.jsonb = some d :=
  scanDetails_eq_some.mpr (.inr ⟨_, rfl, mapM_scanValue_str _⟩)

theorem plain_jsonb (d : Details) : d.jsonb.plain = true := by
  simp [Jsonb.plain, Details.jsonb]

/-- Members that are strings are what was read from them. -/
theorem eq_of_mapM_scanValue : ∀ {kvs : List (String × Json)} {es : List (String × String)},
    kvs.mapM scanValue = some es → (∀ kv ∈ kvs, ∃ s, kv.2 = .str s) →
    kvs = es.map fun kv => (kv.1, Json.str kv.2)
  | [], es, h, _ => by
    obtain rfl : [] = es := Option.some.inj h
    rfl
  | (k, v) :: kvs, es, h, hstr => by
    obtain ⟨s, rfl : v = .str s⟩ := hstr (k, v) (by simp)
    rw [List.mapM_cons] at h
    obtain ⟨d, hd, h⟩ := Option.bind_eq_some_iff.mp h
    obtain ⟨ds, hds, h⟩ := Option.bind_eq_some_iff.mp h
    cases h
    obtain rfl : (k, s) = d := Option.some.inj hd
    rw [eq_of_mapM_scanValue hds fun kv hkv => hstr kv (List.mem_cons_of_mem _ hkv)]
    simp

theorem Jsonb.eq_of_plain (h : scanDetails j = some d) (hj : j.plain = true) :
    j = d.jsonb := by
  rw [plain] at hj
  rcases scanDetails_eq_some.mp h with ⟨hnull, -⟩ | ⟨kvs, hobj, hes⟩
  · rw [hnull] at hj
    cases hj
  · rw [hobj] at hj
    have hstr : ∀ kv ∈ kvs, ∃ s, kv.2 = .str s := by
      intro kv hkv
      have hv := List.all_eq_true.mp hj kv hkv
      split at hv
      next s hs => exact ⟨s, hs⟩
      next => cases hv
    obtain ⟨value, sorted⟩ := j
    obtain rfl : value = .obj kvs := hobj
    rw [Details.jsonb, Jsonb.mk.injEq, ← eq_of_mapM_scanValue hes hstr]

theorem Event.scan_row (e : Event) (prevHash hash : Bytes) :
    (e.row prevHash hash).scan = some e := by
  simp [Row.scan, Event.row, scanTime, scanDetails_jsonb]

/-- A row is that of the event read from it, except for what is lost of `details`. -/
theorem Row.eq_row_of_scan (h : r.scan = some e) :
    r = e.row r.prevHash r.hash ↔ r.details.plain = true := by
  constructor
  · intro hr
    rw [hr]
    exact plain_jsonb _
  · intro hplain
    simp only [scan, Option.bind_eq_bind, Option.bind_eq_some_iff] at h
    obtain ⟨t, ht, t', ht', d, hd, h⟩ := h
    cases h
    have htime : ∀ {x : Timestamptz} {t}, scanTime x = some t → x = .finite t := by
      intro x t hx
      cases x with
      | finite t' => exact congrArg _ (Option.some.inj hx)
      | negInfinity | infinity => cases hx
    obtain ⟨⟩ := r
    simp only [Event.row, Row.mk.injEq, true_and, and_true]
    exact ⟨htime ht, htime ht', Jsonb.eq_of_plain hd hplain⟩

/-! ### Rows that follow from each other -/

variable {sha256 : Bytes → Fixed 32}

variable (sha256) in
/-- These rows hold these events, numbered after `n` and chained after the hash `prev`. -/
def Linked (prev : Bytes) (n : ℤ) : List Row → List Event → Prop
  | [], [] => True
  | r :: rows, e :: es => r.scan = some e ∧ r.sequence = n + 1 ∧ r.prevHash = prev ∧
      r.hash = hash sha256 prev e ∧ Linked (hash sha256 prev e) (n + 1) rows es
  | _, _ => False

/-- The rows of a chain follow from each other. -/
theorem linked_chainRows : ∀ {prev : Bytes} {n : ℤ},
    es.map Event.sequence = (List.range es.length).map (fun i : ℕ => n + (i : ℤ) + 1) →
    Linked sha256 prev n (chainRows sha256 prev es) es := by
  induction es with
  | nil =>
    intro prev n _
    trivial
  | cons e es ih =>
    intro prev n h
    rw [List.length_cons, List.range_succ_eq_map, List.map_cons, List.map_cons, List.cons.injEq,
      List.map_map] at h
    refine ⟨e.scan_row _ _, ?_, rfl, rfl, ih ?_⟩
    · simpa [Event.row] using h.1
    · rw [h.2]
      refine List.map_congr_left fun i _ => ?_
      simp only [Function.comp_apply, Nat.succ_eq_add_one]
      push_cast
      omega

/-- Rows that follow from each other are the rows of their events, except for what is lost. -/
theorem Linked.eq_chainRows_iff : ∀ {prev : Bytes} {n : ℤ} {es : List Event},
    Linked sha256 prev n rows es →
    (rows = chainRows sha256 prev es ↔ ∀ r ∈ rows, r.details.plain = true) := by
  induction rows with
  | nil =>
    rintro prev n (_ | ⟨e, es⟩) h
    · exact iff_of_true rfl fun r hr => (List.not_mem_nil hr).elim
    · exact h.elim
  | cons r rows ih =>
    rintro prev n (_ | ⟨e, es⟩) h
    · exact h.elim
    · obtain ⟨hscan, -, hprev, hhash, hrest⟩ := h
      rw [chainRows_cons, List.cons.injEq, ih hrest, List.forall_mem_cons, ← hhash, ← hprev,
        Row.eq_row_of_scan hscan]

/-! ### One row after the other -/

theorem int64_le (h : 0 ≤ n) : int64 n ≤ n := by
  rw [int64, Int.bmod_def]
  omega

theorem int64_of_lt (h₀ : 0 ≤ n) (h : n < 2 ^ 63) : int64 n = n := by
  rw [int64, Int.bmod_def]
  omega

theorem Verification.intact_broken {c : Prop} [Decidable c] :
    (if c then v.broken n else v).intact = true ↔ v.intact = true ∧ ¬ c := by
  rw [broken]
  split_ifs <;> simp_all

/-- What the loop does with a row. -/
theorem verifyRow_eq_ok (h : verifyRow sha256 x r = .ok y) :
    ∃ e, r.scan = some e ∧ y.1.events = r.sequence ∧ y.2 = hash sha256 x.2 e ∧
      (y.1.intact = true ↔ x.1.intact = true ∧ r.sequence = int64 (x.1.events + 1) ∧
        r.prevHash = x.2 ∧ r.hash = hash sha256 x.2 e) := by
  obtain ⟨e, he, h⟩ := bind_eq_ok.mp h
  cases h
  refine ⟨e, okOr_eq_ok.mp he, rfl, rfl, ?_⟩
  dsimp only
  rw [Verification.intact_broken, Verification.intact_broken]
  simp only [not_not, not_or, and_assoc]

/-- The cursor is the number of the last row. -/
theorem events_of_foldlM (h : (rows ++ [r]).foldlM (verifyRow sha256) x = .ok y) :
    y.1.events = r.sequence := by
  rw [List.foldlM_append] at h
  obtain ⟨z, -, h⟩ := bind_eq_ok.mp h
  rw [List.foldlM_cons] at h
  obtain ⟨z', hz', h⟩ := bind_eq_ok.mp h
  cases h
  obtain ⟨e, -, hevents, -⟩ := verifyRow_eq_ok hz'
  exact hevents

/-- If nothing is broken in the end, the rows follow from each other. -/
theorem linked_of_foldlM : ∀ {x y : Verification × Bytes},
    rows.foldlM (verifyRow sha256) x = .ok y → y.1.intact = true → 0 ≤ x.1.events →
    (∀ r ∈ rows, x.1.events < r.sequence) → rows.Pairwise (fun r r' => r.sequence < r'.sequence) →
    x.1.intact = true ∧ ∃ es, Linked sha256 x.2 x.1.events rows es ∧
      y.2 = es.foldl (hash sha256) x.2 ∧ y.1.events = x.1.events + es.length := by
  induction rows with
  | nil =>
    intro x y h hy _ _ _
    cases h
    exact ⟨hy, [], trivial, rfl, by simp⟩
  | cons r rows ih =>
    intro x y h hy h₀ hlt hpair
    rw [List.foldlM_cons] at h
    obtain ⟨z, hz, h⟩ := bind_eq_ok.mp h
    obtain ⟨e, hscan, hevents, hhash, hintact⟩ := verifyRow_eq_ok hz
    obtain ⟨hfirst, hpair⟩ := List.pairwise_cons.mp hpair
    have hr := hlt r (by simp)
    obtain ⟨hz, es, hes, hy₂, hyn⟩ :=
      ih h hy (by omega) (fun r' hr' => hevents ▸ hfirst r' hr') hpair
    obtain ⟨hx, hseq, hprev, hrhash⟩ := hintact.mp hz
    -- the number is not past the next one, also where `int64` overflows
    have hnext : r.sequence = x.1.events + 1 := by
      have := int64_le (n := x.1.events + 1) (by omega)
      omega
    refine ⟨hx, e :: es, ⟨hscan, hnext, hprev, hrhash, ?_⟩, ?_, ?_⟩
    · rwa [hhash, hevents, hnext] at hes
    · rw [hy₂, hhash, List.foldl_cons]
    · rw [hyn, hevents, hnext, List.length_cons]
      push_cast
      omega

/-- Rows that follow from each other break nothing. -/
theorem foldlM_of_linked : ∀ {prev : Bytes} {v : Verification} {es : List Event},
    Linked sha256 prev v.events rows es → 0 ≤ v.events → v.events + es.length < 2 ^ 63 →
    rows.foldlM (verifyRow sha256) (v, prev) =
      .ok ({ v with events := v.events + es.length }, es.foldl (hash sha256) prev) := by
  induction rows with
  | nil =>
    rintro prev v (_ | ⟨e, es⟩) h _ _
    · simp
      rfl
    · exact h.elim
  | cons r rows ih =>
    rintro prev v (_ | ⟨e, es⟩) h h₀ hlt
    · exact h.elim
    · obtain ⟨hscan, hseq, hprev, hhash, hrest⟩ := h
      rw [List.length_cons] at hlt
      push_cast at hlt
      have hnext : int64 (v.events + 1) = v.events + 1 := int64_of_lt (by omega) (by omega)
      have hstep : verifyRow sha256 (v, prev) r =
          .ok ({ v with events := v.events + 1 }, hash sha256 prev e) := by
        simp [verifyRow, hscan, okOr, hnext, hseq, hprev, hhash]
      have hfold := ih (v := { v with events := v.events + 1 }) hrest (by dsimp only; omega)
        (by dsimp only; omega)
      rw [List.foldlM_cons, hstep, ok_bind, hfold, List.foldl_cons, List.length_cons]
      dsimp only
      push_cast
      rw [add_assoc, add_comm 1]

/-- The same, from the first row on. -/
theorem foldlM_of_linked_first (h : Linked sha256 [] 0 rows es) (hlen : es.length < 2 ^ 63) :
    rows.foldlM (verifyRow sha256) (⟨true, 0, 0, []⟩, []) =
      .ok (⟨true, es.length, 0, []⟩, es.foldl (hash sha256) []) := by
  have hfold := foldlM_of_linked (v := ⟨true, 0, 0, []⟩) h le_rfl (by dsimp only; omega)
  simpa only [zero_add] using hfold

/-! ### Page after page -/

/-- The rows that are still to be read. -/
def Ledger.rest (l : Ledger) (after : ℤ) : List Row :=
  (orderBy Row.sequence l.events).filter fun r => after < r.sequence

theorem Ledger.page_eq (h : Keyed Row.sequence l.events) (after : ℤ) :
    l.page after = (l.rest after).take verifyPage := by
  rw [page, h.orderBy_filter]
  rfl

/-- The loop reads the rows that are left, each once and in order. -/
theorem verifyPages_eq (h : Keyed Row.sequence l.events) :
    ∀ {x : Verification × Bytes}, (l.rest x.1.events).length < k →
      verifyPages sha256 l k x = some ((l.rest x.1.events).foldlM (verifyRow sha256) x) := by
  induction k with
  | zero =>
    intro x hk
    exact absurd hk (Nat.not_lt_zero _)
  | succ k ih =>
    intro x hk
    have hsplit : l.rest x.1.events =
        (l.rest x.1.events).take verifyPage ++ (l.rest x.1.events).drop verifyPage :=
      (List.take_append_drop _ _).symm
    rw [verifyPages, Ledger.page_eq h]
    rw [hsplit, List.foldlM_append, ← hsplit]
    cases hpage : ((l.rest x.1.events).take verifyPage).foldlM (verifyRow sha256) x with
    | error e => rfl
    | ok y =>
      rw [ok_bind]
      dsimp only
      split_ifs with hlast
      · -- the last page has all that is left
        have hdrop : (l.rest x.1.events).drop verifyPage = [] := by
          rw [List.length_take] at hlast
          exact List.drop_eq_nil_of_le (by omega)
        rw [hdrop]
        rfl
      · obtain ⟨rows, r, hrows⟩ : ∃ rows r, (l.rest x.1.events).take verifyPage = rows ++ [r] := by
          rcases List.eq_nil_or_concat ((l.rest x.1.events).take verifyPage) with
            hnil | ⟨rows, r, hr⟩
          · rw [hnil] at hlast
            exact absurd (by decide) hlast
          · exact ⟨rows, r, by rw [hr, List.concat_eq_append]⟩
        rw [hrows] at hpage
        -- the next page begins after the last row of this one
        have hnext : l.rest y.1.events = (l.rest x.1.events).drop verifyPage := by
          rw [events_of_foldlM hpage]
          refine filter_past_page (a := x.1.events) h.pairwise_orderBy (?_ : _ = rows ++ r :: _)
          rw [List.append_cons, ← hrows]
          exact hsplit
        have hlen : (l.rest y.1.events).length < k := by
          rw [List.length_take] at hlast
          rw [hnext, List.length_drop]
          have : verifyPage = 1000 := rfl
          omega
        rw [ih hlen, hnext]

theorem Ledger.rest_zero (h : ∀ r ∈ l.events, 1 ≤ r.sequence) :
    l.rest 0 = orderBy Row.sequence l.events := by
  refine List.filter_eq_self.mpr fun r hr => ?_
  have := h r (mem_orderBy.mp hr)
  simp only [decide_eq_true_eq]
  omega

/-- `Verify` goes through the rows in the order of their numbers. -/
theorem Ledger.verify_eq (h : Keyed Row.sequence l.events) (hpos : ∀ r ∈ l.events, 1 ≤ r.sequence) :
    l.verify sha256 = some (((orderBy Row.sequence l.events).foldlM (verifyRow sha256)
      (⟨true, 0, 0, []⟩, [])).map l.compareHead) := by
  have hlen : (l.rest 0).length < l.events.length + 1 := by
    rw [rest_zero hpos, (orderBy_perm _ _).length_eq]
    exact Nat.lt_succ_self _
  rw [verify, verifyPages_eq (x := (⟨true, 0, 0, []⟩, [])) h hlen, rest_zero hpos]
  rfl

theorem Ledger.intact_compareHead :
    (l.compareHead x).intact = true ↔
      x.1.intact = true ∧ l.head.getD ⟨0, []⟩ = ⟨x.1.events, x.2⟩ := by
  rw [compareHead]
  dsimp only
  rw [Verification.intact_broken]
  cases l.head.getD ⟨0, []⟩
  simp only [not_not, not_or, Head.mk.injEq]

/-- `Verify` reports a chain intact whose rows follow from each other, up to the head. -/
theorem Ledger.verify_of_linked (hpos : ∀ r ∈ l.events, 1 ≤ r.sequence)
    (h : Keyed Row.sequence l.events) (hes : Linked sha256 [] 0 (orderBy Row.sequence l.events) es)
    (hlen : es.length < 2 ^ 63)
    (hhead : l.head.getD ⟨0, []⟩ = ⟨es.length, es.foldl (hash sha256) []⟩) :
    ∃ v, l.verify sha256 = some (.ok v) ∧ v.intact = true := by
  refine ⟨l.compareHead (⟨true, es.length, 0, []⟩, es.foldl (hash sha256) []), ?_, ?_⟩
  · rw [verify_eq h hpos, foldlM_of_linked_first hes hlen]
    rfl
  · exact intact_compareHead.mpr ⟨rfl, hhead⟩

/-- If `Verify` reports a chain intact, its rows follow from each other, up to the head. -/
theorem Ledger.linked_of_verify (hpos : ∀ r ∈ l.events, 1 ≤ r.sequence)
    (h : Keyed Row.sequence l.events) (hv : l.verify sha256 = some (.ok v))
    (hintact : v.intact = true) :
    ∃ es, Linked sha256 [] 0 (orderBy Row.sequence l.events) es ∧
      l.head.getD ⟨0, []⟩ = ⟨es.length, es.foldl (hash sha256) []⟩ := by
  rw [verify_eq h hpos] at hv
  cases hfold : (orderBy Row.sequence l.events).foldlM (verifyRow sha256)
      ((⟨true, 0, 0, []⟩, []) : Verification × Bytes) with
  | error e =>
    rw [hfold] at hv
    cases Option.some.inj hv
  | ok x =>
    rw [hfold] at hv
    obtain rfl : l.compareHead x = v := Except.ok.inj (Option.some.inj hv)
    obtain ⟨hx, hhead⟩ := intact_compareHead.mp hintact
    obtain ⟨-, es, hes, hhash, hevents⟩ := linked_of_foldlM hfold hx le_rfl
      (fun r hr => hpos r (mem_orderBy.mp hr)) h.pairwise_orderBy
    refine ⟨es, hes, ?_⟩
    rw [hhead, hevents, hhash]
    simp

/-! ### The head determines the events -/

variable (sha256) in
/-- What `Verify` hashes on its way through these rows. -/
def hashed (prev : Bytes) : List Row → List Bytes
  | [] => []
  | r :: rows =>
    match r.scan with
    | none => []
    | some e => preimage prev e :: hashed (hash sha256 prev e) rows

variable (sha256) in
/-- What `Verify` hashes. -/
def Ledger.hashed (l : Ledger) : List Bytes :=
  Audit.hashed sha256 [] (orderBy Row.sequence l.events)

theorem Linked.mem_hashed : ∀ {prev : Bytes} {n : ℤ} {es l : List Event} {e : Event},
    Linked sha256 prev n rows es → l ++ [e] <+: es →
      preimage (l.foldl (hash sha256) prev) e ∈ hashed sha256 prev rows := by
  induction rows with
  | nil =>
    rintro prev n (_ | ⟨e', es⟩) l e h hl
    · simp at hl
    · exact h.elim
  | cons r rows ih =>
    rintro prev n (_ | ⟨e', es⟩) l e h hl
    · exact h.elim
    · obtain ⟨hscan, -, -, -, hrest⟩ := h
      rw [hashed, hscan]
      rcases l with _ | ⟨e₀, l⟩
      · obtain rfl : e = e' := by simpa using hl
        exact List.mem_cons_self
      · rw [List.cons_append, List.cons_prefix_cons] at hl
        obtain ⟨rfl, hl⟩ := hl
        exact List.mem_cons_of_mem _ (ih hrest hl)

theorem length_foldl_hash (h : es.length = es'.length) :
    (es.foldl (hash sha256) []).length = (es'.foldl (hash sha256) []).length := by
  rcases List.eq_nil_or_concat es with rfl | ⟨l, e, rfl⟩
  · rw [List.length_eq_zero_iff.mp h.symm]
  · rcases List.eq_nil_or_concat es' with rfl | ⟨l', e', rfl⟩
    · simp at h
    · simp only [List.concat_eq_append, List.foldl_append, List.foldl_cons, List.foldl_nil, hash,
        (sha256 _).2]

/-- Two chains with one head have the same events. -/
theorem Linked.events_eq (h : Linked sha256 [] 0 rows es) (h' : Linked sha256 [] 0 rows' es')
    (hsha : Set.InjOn sha256 { b | b ∈ hashed sha256 [] rows ∨ b ∈ hashed sha256 [] rows' })
    (hlen : es.length = es'.length)
    (hhead : es.foldl (hash sha256) [] = es'.foldl (hash sha256) []) : es = es' := by
  refine HashChain.eq_of_foldl_eq ?_ hlen hhead
  intro l e l' e' hl hl' hll heq
  have hpre := hsha (.inl (h.mem_hashed hl)) (.inr (h'.mem_hashed hl')) (Subtype.ext heq)
  exact preimage_injective (length_foldl_hash hll) hpre

/-! ### Tamper evidence -/

variable (sha256) in
/-- What a sequence of successful calls of `Append` leaves. -/
inductive Appended : DB → Prop
  | nil : Appended fun _ => ⟨none, []⟩
  | append {db db' : DB} {source : String} {recordTime : Timestamp}
    {events : List Event} {c : Counts}
      (h : Appended db) (happ : append sha256 source recordTime events db =
        .ok (c, db')) : Appended db'

theorem Appended.made (h : Appended sha256 db) : db.Made sha256 := by
  induction h with
  | nil => exact fun tenant => ⟨[], .nil tenant⟩
  | append _ happ ih => exact (ih.append happ).1

section

variable {tenant : UUID} {l : Ledger} {es : List Event}

section

variable (h : l.Made sha256 tenant es)
include h

theorem Ledger.Made.pairwise : l.events.Pairwise fun r r' => r.sequence < r'.sequence := by
  have hmap : (l.events.map Row.sequence).Pairwise (· < ·) := by
    rw [h.sequences]
    refine List.pairwise_map.mpr (List.pairwise_lt_range.imp fun hij => ?_)
    omega
  exact List.pairwise_map.mp hmap

theorem Ledger.Made.one_le : ∀ r ∈ l.events, 1 ≤ r.sequence := by
  intro r hr
  have hmem := List.mem_map_of_mem (f := Row.sequence) hr
  rw [h.sequences] at hmem
  obtain ⟨i, -, hi⟩ := List.mem_map.mp hmem
  omega

theorem Ledger.Made.sequence_lt : ∀ r ∈ l.events, r.sequence < 2 ^ 63 := by
  intro r hr
  have hmem := List.mem_map_of_mem (f := Row.sequence) hr
  rw [h.sequences] at hmem
  obtain ⟨i, hi, heq⟩ := List.mem_map.mp hmem
  have := List.mem_range.mp hi
  have := h.bounded
  omega

theorem Ledger.Made.linked : Linked sha256 [] 0 (orderBy Row.sequence l.events) es := by
  rw [orderBy_of_pairwise h.pairwise, h.rows]
  refine linked_chainRows ?_
  simpa using h.numbered

theorem Ledger.Made.keyed : Keyed Row.sequence l.events :=
  List.pairwise_map.mpr (h.pairwise.imp ne_of_lt)

/-- Rows that `Verify` reports intact against the head of a chain are its rows, except for what is
lost. -/
theorem Ledger.Made.perm_iff (hpos : ∀ r ∈ rows, 1 ≤ r.sequence) (hkeyed : Keyed Row.sequence rows)
    (hsha : Set.InjOn sha256 { b | b ∈ l.hashed sha256 ∨ b ∈ Ledger.hashed sha256 ⟨l.head, rows⟩ })
    (hv : Ledger.verify sha256 ⟨l.head, rows⟩ = some (.ok v)) (hintact : v.intact = true) :
    rows.Perm l.events ↔ ∀ r ∈ rows, r.details.plain = true := by
  obtain ⟨es', hes', hhead⟩ := Ledger.linked_of_verify hpos hkeyed hv hintact
  obtain ⟨hlen, hhash⟩ := Head.mk.inj (h.head.symm.trans hhead)
  obtain rfl : es = es' := h.linked.events_eq hes' hsha (by omega) hhash
  have hperm := orderBy_perm Row.sequence rows
  calc rows.Perm l.events
      ↔ orderBy Row.sequence rows = l.events := by
        refine ⟨fun hp => ?_, fun heq => heq ▸ hperm.symm⟩
        exact eq_of_perm_of_pairwise (hperm.trans hp) hkeyed.pairwise_orderBy h.pairwise
    _ ↔ ∀ r ∈ orderBy Row.sequence rows, r.details.plain = true := by
        rw [h.rows]
        exact hes'.eq_chainRows_iff
    _ ↔ ∀ r ∈ rows, r.details.plain = true := by simp only [mem_orderBy]

end

end

/-- The trail after one event. -/
def oneEvent (sha256 : Bytes → Fixed 32) (e : Event) : DB :=
  Function.update (fun _ => ⟨none, []⟩) e.tenantId
    ⟨some ⟨1, hash sha256 [] e⟩, [e.row [] (hash sha256 [] e)]⟩

theorem appended_oneEvent (hs : e.storable = true) (hseq : e.sequence = 1) :
    Appended sha256 (oneEvent sha256 e) := by
  have he :
      ({ e with sequence := 1, source := e.source, recordTime := e.recordTime } : Event) = e := by
    rw [← hseq]
  have hone : Ledger.append sha256 e.source e.recordTime [e] ⟨none, []⟩ =
      .ok (⟨1, 0⟩, ⟨some ⟨1, hash sha256 [] e⟩, [e.row [] (hash sha256 [] e)]⟩) := by
    have hnum : int64 1 = 1 := rfl
    simp [Ledger.append, Ledger.ensureChain, Ledger.queue, Queue.add, hnum, he, Ledger.write,
      Ledger.insert, ensure, hs, hseq, Table.insert]
  refine @Appended.append sha256 _ _ e.source e.recordTime [e] ⟨1, 0⟩ .nil ?_
  have htenants : tenantsOf [e] = [e.tenantId] := rfl
  have hevents : eventsOf e.tenantId [e] = [e] := by simp [eventsOf]
  rw [append, htenants, List.foldlM_cons, appendOne_eq_ok.mpr
    ⟨_, _, by rw [hevents]; exact hone, rfl⟩]
  rfl

theorem hashed_oneEvent :
    (oneEvent sha256 e e.tenantId).hashed sha256 = [preimage [] e] := by
  simp [oneEvent, Ledger.hashed, orderBy, hashed, Event.scan_row]

theorem injOn_single {l l' : List Bytes} (h : l = [b]) (h' : l' = [b]) :
    Set.InjOn sha256 { x | x ∈ l ∨ x ∈ l' } := by
  subst h h'
  rintro x hx y hy -
  exact (or_self_iff.mp hx |> List.mem_singleton.mp).trans
    (or_self_iff.mp hy |> List.mem_singleton.mp).symm

/-- **Tamper evidence.** After any sequence of successful calls of `Append`, `Verify` reports every
tenant's chain intact. As long as the head stays what they left, any rows that `Verify` reports
intact are the rows they left, exactly if `details` is an object of strings in each of them. -/
theorem changes_found {db : DB} (h : Appended sha256 db) (tenant : UUID) :
    (∃ v, (db tenant).verify sha256 = some (.ok v) ∧ v.intact = true) ∧
    ∀ rows : List Row, (∀ r ∈ rows, 1 ≤ r.sequence) → Keyed Row.sequence rows →
      Set.InjOn sha256
        { b | b ∈ (db tenant).hashed sha256 ∨ b ∈ Ledger.hashed sha256 ⟨(db tenant).head, rows⟩ } →
      ∀ v, Ledger.verify sha256 ⟨(db tenant).head, rows⟩ = some (.ok v) → v.intact = true →
        (rows.Perm (db tenant).events ↔ ∀ r ∈ rows, r.details.plain = true) := by
  obtain ⟨es, hes⟩ := h.made tenant
  refine ⟨?_, fun rows hpos hkeyed hsha v hv hintact => ?_⟩
  · exact Ledger.verify_of_linked hes.one_le hes.keyed hes.linked hes.bounded hes.head
  · exact hes.perm_iff hpos hkeyed hsha hv hintact

/-- A table of one event. -/
theorem changes_found_signIn :
    ((oneEvent zeros (signIn ⟨[("ip", "::1")], by simp⟩) (signIn .empty).tenantId).events.all
      fun r => r.details.plain) = true := by
  have hdb : Appended zeros (oneEvent zeros (signIn ⟨[("ip", "::1")], by simp⟩)) :=
    appended_oneEvent (by decide +kernel) rfl
  obtain ⟨⟨v, hv, hintact⟩, hrows⟩ := changes_found hdb (signIn .empty).tenantId
  obtain ⟨es, hes⟩ := hdb.made (signIn .empty).tenantId
  exact List.all_eq_true.mpr ((hrows _ hes.one_le hes.keyed
    (injOn_single hashed_oneEvent hashed_oneEvent) v hv hintact).mp (.refl _))

/-- An event without details: whoever replaces its `{}` by `null` is not found out. -/
theorem null_details_not_found :
    Appended zeros (oneEvent zeros (signIn .empty)) ∧
    ∃ rows : List Row, (∀ r ∈ rows, 1 ≤ r.sequence) ∧ Keyed Row.sequence rows ∧
      Set.InjOn zeros
        { b | b ∈ (oneEvent zeros (signIn .empty) (signIn .empty).tenantId).hashed zeros ∨
          b ∈ Ledger.hashed zeros
            ⟨(oneEvent zeros (signIn .empty) (signIn .empty).tenantId).head, rows⟩ } ∧
      (∃ v, Ledger.verify zeros
        ⟨(oneEvent zeros (signIn .empty) (signIn .empty).tenantId).head, rows⟩ =
          some (.ok v) ∧ v.intact = true) ∧
      ¬ rows.Perm (oneEvent zeros (signIn .empty) (signIn .empty).tenantId).events := by
  let e := signIn .empty
  let r : Row := { e.row [] (hash zeros [] e) with details := ⟨.null, by rintro _ ⟨⟩⟩ }
  have hdb : oneEvent zeros e e.tenantId =
      ⟨some ⟨1, hash zeros [] e⟩, [e.row [] (hash zeros [] e)]⟩ := Function.update_self ..
  have hlinked : Linked zeros [] 0 (orderBy Row.sequence [r]) [e] := ⟨rfl, rfl, rfl, rfl, trivial⟩
  refine ⟨appended_oneEvent (by decide +kernel) rfl, [r], by simp [r, e, Event.row, signIn],
    List.nodup_singleton _, ?_, ?_, ?_⟩
  · exact injOn_single hashed_oneEvent rfl
  · refine Ledger.verify_of_linked (by simp [r, e, Event.row, signIn])
      (List.nodup_singleton _) hlinked
      (by decide) ?_
    exact congrArg (fun l : Ledger => l.head.getD ⟨0, []⟩) hdb
  · intro hperm
    have hr : [r] = [e.row [] (hash zeros [] e)] :=
      List.perm_singleton.mp (hperm.trans (.of_eq (congrArg Ledger.events hdb)))
    have hdetails := congrArg (fun r : Row => r.details.value) (List.cons.inj hr).1
    cases hdetails

end Jarvis.Audit
