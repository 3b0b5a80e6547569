import Jarvis.Audit.Store

/-!
# The audit service: what `Append` leaves

The rows of a tenant are the chain of a list of events, numbered from one, and the head is its end
(`Ledger.Made`). The loop of `appendTenant` prolongs the chain (`Queue.Good`), so that `Append`
keeps it. A batch that is in the chain is skipped.
-/

namespace Jarvis.Audit

section

variable (sha256 : Bytes → Fixed 32)

/-- Events, each with the hash before it. -/
def links (prev : Bytes) : List Event → List (Event × Bytes)
  | [] => []
  | e :: es => (e, prev) :: links (hash sha256 prev e) es

/-- The rows of a chain of events. -/
def chainRows (prev : Bytes) (es : List Event) : List Row :=
  (links sha256 prev es).map fun x => x.1.row x.2 (hash sha256 x.2 x.1)

/-- The rows of a tenant are the chain of these events, and the head is its end. -/
structure Ledger.Made (tenant : UUID) (l : Ledger) (es : List Event) : Prop where
  rows : l.events = chainRows sha256 [] es
  head : l.head.getD ⟨0, []⟩ = ⟨es.length, es.foldl (hash sha256) []⟩
  numbered : es.map Event.sequence = (List.range es.length).map fun i : ℕ => (i : ℤ) + 1
  bounded : es.length < 2 ^ 63
  tenant : ∀ e ∈ es, e.tenantId = tenant
  ids : (es.map Event.eventId).Nodup

end

variable {sha256 : Bytes → Fixed 32}

/-! ### Chains -/

variable {es : List Event}

section

variable {prev : Bytes} {es' : List Event}

theorem links_append :
    links sha256 prev (es ++ es') =
      links sha256 prev es ++ links sha256 (es.foldl (hash sha256) prev) es' := by
  induction es generalizing prev with
  | nil => rfl
  | cons e es ih => rw [List.cons_append, links, links, ih, List.cons_append, List.foldl_cons]

theorem chainRows_append :
    chainRows sha256 prev (es ++ es') =
      chainRows sha256 prev es ++ chainRows sha256 (es.foldl (hash sha256) prev) es' := by
  rw [chainRows, links_append, List.map_append]
  rfl

@[simp] theorem chainRows_cons :
    chainRows sha256 prev (e :: es) =
      e.row prev (hash sha256 prev e) :: chainRows sha256 (hash sha256 prev e) es := rfl

theorem map_fst_links : (links sha256 prev es).map Prod.fst = es := by
  induction es generalizing prev with
  | nil => rfl
  | cons e es ih => rw [links, List.map_cons, ih]

theorem chainRows_map {α : Type} {f : Row → α} {g : Event → α}
    (h : ∀ (e : Event) p x, f (e.row p x) = g e) : (chainRows sha256 prev es).map f = es.map g := by
  induction es generalizing prev with
  | nil => rfl
  | cons e es ih => rw [chainRows_cons, List.map_cons, List.map_cons, h, ih]

end

theorem Ledger.Made.nil (tenant : UUID) : Ledger.Made sha256 tenant ⟨none, []⟩ [] where
  rows := rfl
  head := rfl
  numbered := rfl
  bounded := by decide
  tenant e he := (List.not_mem_nil he).elim
  ids := .nil

variable {tenant : UUID} {l : Ledger}

theorem Ledger.Made.eventIds (h : l.Made sha256 tenant es) :
    l.events.map Row.eventId = es.map Event.eventId := by
  rw [h.rows]
  exact chainRows_map fun _ _ _ => rfl

theorem Ledger.Made.sequences (h : l.Made sha256 tenant es) :
    l.events.map Row.sequence = (List.range es.length).map fun i : ℕ => (i : ℤ) + 1 := by
  rw [h.rows, ← h.numbered]
  exact chainRows_map fun _ _ _ => rfl

/-! ### The loop of `appendTenant` -/

variable {source : String} {recordTime : Timestamp} {new events : List Event} {q : Queue}

section

variable {n : ℤ} {p : Bytes} {stored : List UUID}

/-- An event with what the service sets. -/
def Event.stamped (e : Event) (sequence : ℤ) (source : String) (recordTime : Timestamp) : Event :=
  { e with sequence, source, recordTime }

variable (sha256 source recordTime n p stored) in
/-- What the loop has done with some of the events: `new` has those that are queued. The chain
before has `n` events and ends with the hash `p`, and `stored` are the ids that were found. -/
structure Queue.Good (events : List Event) (q : Queue) (new : List Event) : Prop where
  queued : q.queued = links sha256 p new
  prev : q.prev = new.foldl (hash sha256) p
  numbered : (∀ e ∈ new, 1 ≤ e.sequence) →
    new.map Event.sequence = (List.range new.length).map (fun i : ℕ => n + (i : ℤ) + 1) ∧
      q.sequence = n + new.length ∧ q.sequence < 2 ^ 63
  seen : q.seen = stored ++ new.map Event.eventId
  nodup : q.seen.Nodup
  count : new.length + q.duplicates = events.length
  covered : ∀ e ∈ events, e.eventId ∈ q.seen
  origin : ∀ e ∈ new, ∃ d ∈ events, e = d.stamped e.sequence source recordTime

/-- The number after a number is in range, or it is negative. -/
theorem int64_succ (h₀ : 0 ≤ n) (h : n < 2 ^ 63) (h₁ : 1 ≤ int64 (n + 1)) :
    int64 (n + 1) = n + 1 ∧ n + 1 < 2 ^ 63 := by
  rw [int64, Int.bmod_def] at *
  omega

theorem Queue.Good.add (hn : 0 ≤ n) (e : Event)
    (h : q.Good sha256 source recordTime n p stored events new) :
    ∃ new', (q.add sha256 source recordTime e).Good sha256 source recordTime n p stored
    (events ++ [e]) new' := by
  rw [Queue.add]
  split_ifs with hseen
  · refine ⟨new, h.queued, h.prev, h.numbered, h.seen, h.nodup, ?_, ?_, ?_⟩
    · rw [List.length_append, ← h.count]
      rfl
    · intro d hd
      rcases List.mem_append.mp hd with hd | hd
      · exact h.covered d hd
      · rwa [List.mem_singleton.mp hd]
    · intro x hx
      obtain ⟨d, hd, hsame⟩ := h.origin x hx
      exact ⟨d, List.mem_append_left _ hd, hsame⟩
  · let e' : Event :=
      { e with sequence := int64 (q.sequence + 1), source := source, recordTime := recordTime }
    refine ⟨new ++ [e'], ?_, ?_, ?_, ?_, ?_, ?_, ?_, ?_⟩
    · rw [links_append, ← h.queued, ← h.prev]
      rfl
    · rw [List.foldl_append, ← h.prev]
      rfl
    · intro hpos
      obtain ⟨hmap, hseq, hlt⟩ := h.numbered fun x hx => hpos x (List.mem_append_left _ hx)
      obtain ⟨hsucc, hlt'⟩ := int64_succ (by omega) hlt (hpos e' (by simp))
      rw [List.map_append, hmap, List.length_append, List.length_singleton, List.range_succ,
        List.map_append]
      have hnum : e'.sequence = n + new.length + 1 := hsucc.trans (by rw [hseq])
      refine ⟨?_, ?_, ?_⟩
      · rw [List.map_singleton, List.map_singleton, hnum]
      · refine hnum.trans ?_
        push_cast
        omega
      · exact hsucc.trans_lt hlt'
    · rw [List.map_append, ← List.append_assoc, ← h.seen]
      rfl
    · exact List.nodup_append.mpr ⟨h.nodup, List.nodup_singleton _, fun a ha b hb hab =>
        hseen (List.mem_singleton.mp hb ▸ hab ▸ ha)⟩
    · simp only [List.length_append, List.length_singleton, ← h.count]
      omega
    · intro d hd
      rcases List.mem_append.mp hd with hd | hd
      · exact List.mem_append_left _ (h.covered d hd)
      · rw [List.mem_singleton.mp hd]
        simp
    · intro x hx
      rcases List.mem_append.mp hx with hx | hx
      · obtain ⟨d, hd, hsame⟩ := h.origin x hx
        exact ⟨d, List.mem_append_left _ hd, hsame⟩
      · rw [List.mem_singleton.mp hx]
        exact ⟨e, by simp, rfl⟩

/-- The whole loop. -/
theorem Queue.Good.foldl (hn : 0 ≤ n) (rest : List Event)
    (h : q.Good sha256 source recordTime n p stored events new) :
    ∃ new', (rest.foldl (Queue.add sha256 source recordTime) q).Good sha256 source recordTime n p
    stored (events ++ rest)
      new' := by
  induction rest generalizing events q new with
  | nil => exact ⟨new, by rwa [List.append_nil]⟩
  | cons e rest ih =>
    obtain ⟨new₁, h₁⟩ :
        ∃ new₁, (q.add sha256 source recordTime e).Good sha256 source recordTime n p stored
          (events ++ [e]) new₁ :=
      h.add hn e
    rw [List.append_cons]
    exact ih h₁

end

/-! ### The statements of `appendTenant` -/

variable {l' : Ledger}

theorem Ledger.insert_eq_ok :
    l.insert e p x = .ok l' ↔
      (e.storable ∧ 1 ≤ e.sequence ∧ ∀ r ∈ l.events, r.sequence ≠ e.sequence ∧
        r.eventId ≠ e.eventId) ∧ l' = { l with events := l.events ++ [e.row p x] } := by
  simp only [Ledger.insert, bind_eq_ok, ensure_eq_ok, exists_const]
  exact and_congr_right fun _ => ⟨fun h => (Except.ok.inj h).symm, fun h => h ▸ rfl⟩

/-- The rows that a batch inserts. -/
theorem Ledger.insertAll {xs : List (Event × Bytes)} :
    ∀ {l : Ledger}, xs.foldlM (fun l x => l.insert x.1 x.2 (hash sha256 x.2 x.1)) l = .ok l' →
      l' = { l with events := l.events ++ xs.map fun x => x.1.row x.2 (hash sha256 x.2 x.1) } ∧
        ∀ x ∈ xs, 1 ≤ x.1.sequence := by
  induction xs with
  | nil =>
    intro l h
    cases h
    exact ⟨by simp, fun _ hx => (List.not_mem_nil hx).elim⟩
  | cons x xs ih =>
    intro l h
    rw [List.foldlM_cons, bind_eq_ok] at h
    obtain ⟨l₁, h₁, h⟩ := h
    obtain ⟨⟨-, hpos, -⟩, rfl⟩ := insert_eq_ok.mp h₁
    obtain ⟨rfl, hall⟩ := ih h
    refine ⟨by simp, fun y hy => ?_⟩
    rcases List.mem_cons.mp hy with rfl | hy
    · exact hpos
    · exact hall y hy

theorem Ledger.write_of_nil (h : q.queued = []) : l.write sha256 q = .ok l := if_pos h

/-- What a batch has written, if it was not refused. -/
theorem Ledger.write_eq_ok (h : l.write sha256 q = .ok l') :
    (q.queued = [] ∧ l' = l) ∨
      (q.queued ≠ [] ∧ (∀ x ∈ q.queued, 1 ≤ x.1.sequence) ∧
        l' = ⟨some ⟨q.sequence, q.prev⟩,
          l.events ++ q.queued.map fun x => x.1.row x.2 (hash sha256 x.2 x.1)⟩) := by
  rw [write] at h
  split_ifs at h with hnil
  · exact .inl ⟨hnil, (Except.ok.inj h).symm⟩
  · obtain ⟨l₁, h₁, h⟩ := bind_eq_ok.mp h
    obtain ⟨rfl, hpos⟩ := insertAll h₁
    exact .inr ⟨hnil, hpos, (Except.ok.inj h).symm⟩

/-! ### Append -/

section

variable {c : Counts}

theorem Ledger.Made.ensureChain (h : l.Made sha256 tenant es) :
    l.ensureChain.Made sha256 tenant es where
  rows := h.rows
  head := by simpa [Ledger.ensureChain] using h.head
  numbered := h.numbered
  bounded := h.bounded
  tenant := h.tenant
  ids := h.ids

theorem Ledger.mem_queue_seen {id : UUID} :
    id ∈ (l.queue events).seen ↔ id ∈ l.events.map Row.eventId ∧ id ∈ events.map Event.eventId := by
  simp only [queue, List.mem_map, List.mem_filter, decide_eq_true_eq]
  constructor
  · rintro ⟨r, ⟨hr, hid⟩, rfl⟩
    exact ⟨⟨r, hr, rfl⟩, hid⟩
  · rintro ⟨⟨r, hr, rfl⟩, hid⟩
    exact ⟨r, ⟨hr, hid⟩, rfl⟩

/-- The loop begins at the end of the chain. -/
theorem Ledger.Made.queue (h : l.Made sha256 tenant es) (events : List Event) :
    (l.queue events).Good sha256 source recordTime es.length (es.foldl (hash sha256) [])
    (l.queue events).seen [] [] where
  queued := rfl
  prev := congrArg Head.lastHash h.head
  numbered _ := by
    have hseq : (l.queue events).sequence = es.length := congrArg Head.lastSequence h.head
    have := h.bounded
    exact ⟨rfl, by simpa using hseq, by omega⟩
  seen := (List.append_nil _).symm
  nodup := by
    have hids : (l.events.map Row.eventId).Nodup := h.eventIds ▸ h.ids
    exact hids.sublist (List.filter_sublist.map _)
  count := rfl
  covered e he := (List.not_mem_nil he).elim
  origin e he := (List.not_mem_nil he).elim

/-- The ids that are queued are new. -/
theorem Ledger.Made.new_ids (h : l.Made sha256 tenant es)
    (hq : q.Good sha256 source recordTime es.length (es.foldl (hash sha256) [])
      (l.queue events).seen events new) :
    ((es ++ new).map Event.eventId).Nodup := by
  have hnd := hq.nodup
  rw [hq.seen] at hnd
  rw [List.map_append]
  refine List.nodup_append.mpr ⟨h.ids, (List.nodup_append.mp hnd).2.1, ?_⟩
  rintro id hes _ hnew rfl
  -- an id of the batch that is in the chain has been found
  obtain ⟨e, he, rfl⟩ := List.mem_map.mp hnew
  obtain ⟨d, hd, hde⟩ := hq.origin e he
  have hstored : e.eventId ∈ (l.queue events).seen :=
    mem_queue_seen.mpr ⟨h.eventIds ▸ hes, List.mem_map.mpr
      ⟨d, hd, (congrArg Event.eventId hde).symm⟩⟩
  exact (List.nodup_append.mp hnd).2.2 _ hstored _ hnew rfl

/-- The queued events prolong the chain. -/
theorem Ledger.Made.extend (h : l.Made sha256 tenant es) (ht : ∀ e ∈ events, e.tenantId = tenant)
    (hq : q.Good sha256 source recordTime es.length (es.foldl (hash sha256) [])
      (l.queue events).seen events new)
    (hpos : ∀ e ∈ new, 1 ≤ e.sequence) :
    Ledger.Made sha256 tenant ⟨some ⟨q.sequence, q.prev⟩,
      l.events ++ chainRows sha256 (es.foldl (hash sha256) []) new⟩ (es ++ new) := by
  obtain ⟨hmap, hseq, hlt⟩ := hq.numbered hpos
  refine ⟨?_, ?_, ?_, ?_, ?_, h.new_ids hq⟩
  · rw [h.rows, chainRows_append]
  · rw [Option.getD_some, hseq, hq.prev, List.foldl_append, List.length_append, Nat.cast_add]
  · rw [List.map_append, h.numbered, hmap, List.length_append, List.range_add, List.map_append,
      List.map_map]
    simp [Function.comp_def]
  · rw [List.length_append]
    omega
  · intro e he
    rcases List.mem_append.mp he with he | he
    · exact h.tenant e he
    · obtain ⟨d, hd, hde⟩ := hq.origin e he
      exact (congrArg Event.tenantId hde).trans (ht d hd)

variable (source recordTime events) in
/-- What a batch leaves of a tenant's rows: behind those that were there, so many new ones, each of
an event of the batch that was not there. -/
def Ledger.Grows (recorded : ℕ) (l l' : Ledger) : Prop :=
  ∃ new, l'.events = l.events ++ new ∧ new.length = recorded ∧
    ∀ r ∈ new, r.eventId ∉ l.events.map Row.eventId ∧
      ∃ e ∈ events, r = (e.stamped r.sequence source recordTime).row r.prevHash r.hash

/-- The rows of a chain that prolong it. -/
theorem Ledger.Made.grows (h : l.Made sha256 tenant es) (h' : l'.Made sha256 tenant (es ++ new))
    (hnew : ∀ e ∈ new, ∃ d ∈ events, e = d.stamped e.sequence source recordTime) :
    l.Grows source recordTime events new.length l' := by
  refine ⟨chainRows sha256 (es.foldl (hash sha256) []) new, ?_, ?_, fun r hr => ?_⟩
  · rw [h'.rows, h.rows, chainRows_append]
  · rw [← List.length_map Row.eventId, chainRows_map (g := Event.eventId) fun _ _ _ => rfl,
      List.length_map]
  · obtain ⟨x, hx, rfl⟩ := List.mem_map.mp hr
    have he : x.1 ∈ new := by
      rw [← @map_fst_links sha256 new (es.foldl (hash sha256) [])]
      exact List.mem_map_of_mem hx
    refine ⟨fun hold => ?_, ?_⟩
    · have hnd := h'.ids
      rw [List.map_append, ← h.eventIds] at hnd
      exact (List.nodup_append.mp hnd).2.2 _ hold _ (List.mem_map_of_mem he) rfl
    · obtain ⟨d, hd, hde⟩ := hnew x.1 he
      exact ⟨d, hd, congrArg (fun e : Event => e.row x.2 (hash sha256 x.2 x.1)) hde⟩

/-- A batch has been appended to a tenant's chain. -/
theorem Ledger.Made.append (h : l.Made sha256 tenant es) (ht : ∀ e ∈ events, e.tenantId = tenant)
    (happ : l.append sha256 source recordTime events = .ok (c, l')) :
    ∃ new, l'.Made sha256 tenant (es ++ new) ∧ l'.head.isSome ∧
      c.recorded + c.duplicates = events.length ∧
      (∀ e ∈ events, e.eventId ∈ (es ++ new).map Event.eventId) ∧
      l.Grows source recordTime events c.recorded l' := by
  obtain ⟨l₁, hwrite, hret⟩ := bind_eq_ok.mp happ
  obtain ⟨rfl, rfl⟩ := Prod.mk.inj (Except.ok.inj hret)
  have hmade := h.ensureChain
  obtain ⟨new, hq⟩ : ∃ new, (events.foldl (Queue.add sha256 source recordTime)
      (l.ensureChain.queue events)).Good sha256 source recordTime es.length
        (es.foldl (hash sha256) [])
        (l.ensureChain.queue events).seen ([] ++ events) new :=
    (hmade.queue events).foldl (Int.natCast_nonneg _) events
  rw [List.nil_append] at hq
  have hcount : (events.foldl (Queue.add sha256 source recordTime)
      (l.ensureChain.queue events)).queued.length = new.length := by
    rw [hq.queued, ← List.length_map Prod.fst, map_fst_links]
  have hmade' : l₁.Made sha256 tenant (es ++ new) := by
    rcases Ledger.write_eq_ok hwrite with ⟨hnil, rfl⟩ | ⟨-, hpos, rfl⟩
    · obtain rfl : new = [] := by
        rw [← List.length_eq_zero_iff, ← hcount, hnil, List.length_nil]
      rwa [List.append_nil]
    · rw [hq.queued] at hpos ⊢
      refine hmade.extend ht hq fun e he => ?_
      rw [← @map_fst_links sha256 new (es.foldl (hash sha256) [])] at he
      obtain ⟨x, hx, rfl⟩ := List.mem_map.mp he
      exact hpos x hx
  refine ⟨new, hmade', ?_, ?_, ?_, hcount ▸ h.grows hmade' hq.origin⟩
  · rcases Ledger.write_eq_ok hwrite with ⟨-, rfl⟩ | ⟨-, -, rfl⟩ <;> rfl
  · rw [hcount]
    exact hq.count
  · intro e he
    have hseen := hq.covered e he
    rw [hq.seen, List.mem_append] at hseen
    rw [List.map_append, List.mem_append]
    refine hseen.imp_left fun hid => ?_
    rw [← hmade.eventIds]
    exact (mem_queue_seen.mp hid).1

/-- Events that have all been seen are skipped. -/
theorem Queue.foldl_of_seen : ∀ {events : List Event} {q : Queue},
    (∀ e ∈ events, e.eventId ∈ q.seen) → events.foldl (Queue.add sha256 source recordTime) q =
      { q with duplicates := q.duplicates + events.length }
  | [], q, _ => rfl
  | e :: events, q, h => by
    have ih := foldl_of_seen (q := { q with duplicates := q.duplicates + 1 })
      fun d hd => h d (List.mem_cons_of_mem _ hd)
    rw [List.foldl_cons, Queue.add, if_pos (h e (by simp)), ih, List.length_cons]
    simp only [Nat.add_assoc, Nat.add_comm 1]

/-- A batch that is in the chain changes nothing. -/
theorem Ledger.append_again (hhead : l.head.isSome)
    (hids : ∀ e ∈ events, e.eventId ∈ l.events.map Row.eventId) :
    l.append sha256 source recordTime events = .ok (⟨0, events.length⟩, l) := by
  have hl : l.ensureChain = l := by
    obtain ⟨head, hhead⟩ := Option.isSome_iff_exists.mp hhead
    cases l
    cases hhead
    rfl
  have hseen : ∀ e ∈ events, e.eventId ∈ (l.queue events).seen := fun e he =>
    mem_queue_seen.mpr ⟨hids e he, List.mem_map_of_mem he⟩
  rw [append, hl, Queue.foldl_of_seen hseen, write_of_nil rfl, ok_bind]
  exact congrArg (fun n => Except.ok ((⟨0, n⟩ : Counts), l)) (Nat.zero_add _)

end

/-! ### Batches of several tenants -/

section

variable {x y : Counts × DB}

theorem tenant_of_mem_eventsOf : ∀ e ∈ eventsOf tenant events, e.tenantId = tenant :=
  fun _ he => of_decide_eq_true (List.mem_filter.mp he).2

theorem appendOne_eq_ok :
    appendOne sha256 source recordTime events x tenant = .ok y ↔
      ∃ c l, (x.2 tenant).append sha256 source recordTime (eventsOf tenant events) = .ok (c, l) ∧
        y = (⟨x.1.recorded + c.recorded, x.1.duplicates + c.duplicates⟩,
          Function.update x.2 tenant l) := by
  rw [appendOne, bind_eq_ok]
  constructor
  · rintro ⟨⟨c, l⟩, happ, h⟩
    exact ⟨c, l, happ, (Except.ok.inj h).symm⟩
  · rintro ⟨c, l, happ, rfl⟩
    exact ⟨(c, l), happ, rfl⟩

variable (sha256) in
/-- Every tenant's rows are a chain. -/
def DB.Made (db : DB) : Prop := ∀ tenant, ∃ es, (db tenant).Made sha256 tenant es

/-- A tenant's chain has the events of a batch. -/
structure Ledger.Holds (l : Ledger) (events : List Event) : Prop where
  head : l.head.isSome
  ids : ∀ e ∈ events, e.eventId ∈ l.events.map Row.eventId

variable (sha256 source recordTime events) in
/-- What is true when the batch was appended for some tenants. -/
structure AppendedFor (tenants : List UUID) (x y : Counts × DB) : Prop where
  made : y.2.Made sha256
  holds : ∀ t ∈ tenants, (y.2 t).Holds (eventsOf t events)
  count : y.1.recorded + y.1.duplicates =
    x.1.recorded + x.1.duplicates + (tenants.map fun t => (eventsOf t events).length).sum
  other : ∀ t ∉ tenants, y.2 t = x.2 t
  grows : ∃ recorded : UUID → ℕ, y.1.recorded = x.1.recorded + (tenants.map recorded).sum ∧
    ∀ t ∈ tenants, (x.2 t).Grows source recordTime (eventsOf t events) (recorded t) (y.2 t)

/-- One tenant of a batch. -/
theorem DB.Made.appendOne (h : x.2.Made sha256)
    (happ : appendOne sha256 source recordTime events x tenant = .ok y) :
    AppendedFor sha256 source recordTime events [tenant] x y := by
  obtain ⟨c, l, hone, rfl⟩ := appendOne_eq_ok.mp happ
  obtain ⟨es, hes⟩ := h tenant
  obtain ⟨new, hnew, hhead, hcount, hids, hgrows⟩ := hes.append tenant_of_mem_eventsOf hone
  refine ⟨fun t => ?_, List.forall_mem_singleton.mpr ?_, ?_, fun t ht => ?_,
    fun _ => c.recorded, by simp, List.forall_mem_singleton.mpr (by simpa using hgrows)⟩
  · by_cases ht : t = tenant
    · subst ht
      exact ⟨es ++ new, by simpa using hnew⟩
    · simpa [Function.update_of_ne ht] using h t
  · refine ⟨by simpa using hhead, fun e he => ?_⟩
    simpa [hnew.eventIds] using hids e he
  · simp only [List.map_singleton, List.sum_singleton]
    omega
  · exact Function.update_of_ne (List.ne_of_not_mem_cons ht) _ _

/-- Some tenants of a batch. -/
theorem DB.Made.foldlM :
    ∀ {x y : Counts × DB}, x.2.Made sha256 → tenants.Nodup →
      tenants.foldlM (Audit.appendOne sha256 source recordTime events) x = .ok y →
      AppendedFor sha256 source recordTime events tenants x y := by
  induction tenants with
  | nil =>
    intro x y hx _ hy
    cases hy
    exact ⟨hx, fun t ht => (List.not_mem_nil ht).elim, by simp, fun t _ => rfl, fun _ => 0, by simp,
      fun t ht => (List.not_mem_nil ht).elim⟩
  | cons tenant tenants ih =>
    intro x y hx hnd hy
    rw [List.foldlM_cons] at hy
    obtain ⟨z, hz, hy⟩ := bind_eq_ok.mp hy
    have hone := hx.appendOne hz
    obtain ⟨hnot, hnd⟩ := List.nodup_cons.mp hnd
    have hrest := ih hone.made hnd hy
    obtain ⟨n, hn, hgrows⟩ := hone.grows
    obtain ⟨f, hf, hgrows'⟩ := hrest.grows
    refine ⟨hrest.made, fun t ht => ?_, ?_, fun t ht => ?_, Function.update f tenant (n tenant), ?_,
      fun t ht => ?_⟩
    · rcases List.mem_cons.mp ht with rfl | ht
      · rw [hrest.other t hnot]
        exact hone.holds t (List.mem_singleton_self t)
      · exact hrest.holds t ht
    · simp only [hrest.count, hone.count, List.map_cons, List.map_nil, List.sum_cons, List.sum_nil]
      omega
    · rw [hrest.other t (List.not_mem_of_not_mem_cons ht),
        hone.other t (by simpa using List.ne_of_not_mem_cons ht)]
    · have hmap : tenants.map (Function.update f tenant (n tenant)) = tenants.map f :=
        List.map_congr_left fun t ht =>
          Function.update_of_ne (fun heq => hnot (by rwa [← heq])) _ _
      simp only [hf, hn, hmap, List.map_cons, List.map_nil, List.sum_cons, List.sum_nil,
        Function.update_self]
      omega
    · by_cases heq : t = tenant
      · subst heq
        rw [Function.update_self, hrest.other t hnot]
        exact hgrows t (List.mem_singleton_self t)
      · rw [Function.update_of_ne heq, ← hone.other t (by simpa using heq)]
        exact hgrows' t ((List.mem_cons.mp ht).resolve_left heq)

theorem nodup_tenantsOf : (tenantsOf events).Nodup :=
  (List.perm_insertionSort _ _).nodup_iff.mpr (List.nodup_dedup _)

/-- The tenants share out the events of a batch. -/
theorem sum_length_eventsOf :
    ((tenantsOf events).map fun t => (eventsOf t events).length).sum = events.length := by
  have hcount : ∀ t, (eventsOf t events).length =
      @List.count UUID instBEqOfDecidableEq t (events.map Event.tenantId) := by
    intro t
    rw [eventsOf, ← List.countP_eq_length_filter]
    exact (List.countP_map (p := fun x => decide (x = t)) (f := Event.tenantId)).symm
  simp only [hcount]
  rw [tenantsOf, ((List.perm_insertionSort _ _).map _).sum_eq, List.sum_map_count_dedup_eq_length,
    List.length_map]

/-- A batch has been appended. -/
theorem DB.Made.append (h : db.Made sha256)
    (happ : append sha256 source recordTime events db = .ok (c, db')) :
    AppendedFor sha256 source recordTime events (tenantsOf events) (⟨0, 0⟩, db) (c, db') :=
  foldlM h nodup_tenantsOf happ

/-- A batch that is in the chains changes nothing. -/
theorem append_again (h : ∀ t ∈ tenantsOf events, (db t).Holds (eventsOf t events)) :
    append sha256 source recordTime events db = .ok (⟨0, events.length⟩, db) := by
  have hfold : ∀ (tenants : List UUID) (c : Counts),
      (∀ t ∈ tenants, (db t).Holds (eventsOf t events)) →
      tenants.foldlM (appendOne sha256 source recordTime events) (c, db) =
        .ok (⟨c.recorded, c.duplicates +
          (tenants.map fun t => (eventsOf t events).length).sum⟩, db) := by
    intro tenants
    induction tenants with
    | nil =>
      intro c _
      rfl
    | cons t tenants ih =>
      intro c hholds
      have ht := hholds t (by simp)
      have hone : appendOne sha256 source recordTime events (c, db) t =
          .ok (⟨c.recorded, c.duplicates + (eventsOf t events).length⟩, db) :=
        appendOne_eq_ok.mpr ⟨_, _, Ledger.append_again ht.head ht.ids, by simp⟩
      rw [List.foldlM_cons, hone, ok_bind, ih _ fun t ht => hholds t (List.mem_cons_of_mem _ ht),
        List.map_cons, List.sum_cons, Nat.add_assoc]
  rw [append, hfold _ _ h, sum_length_eventsOf, Nat.zero_add]

end

/-! ### A concrete event -/

/-- An event with these details. -/
def signIn (details : Details) : Event where
  tenantId := ⟨"00000000-0000-4000-8000-000000000001", by decide +kernel⟩
  sequence := 1
  eventId := ⟨"00000000-0000-4000-8000-000000000002", by decide +kernel⟩
  occurTime := epoch
  recordTime := epoch
  actorKind := "user"
  actorId := "u"
  onBehalfOf := ""
  action := "session.create"
  targetType := ""
  targetId := ""
  outcome := "success"
  reason := ""
  requestId := ""
  source := "app-api"
  details := details

/-- A hash function that is not computed. -/
def zeros : Bytes → Fixed 32 := fun _ => ⟨List.replicate 32 0, rfl⟩

end Jarvis.Audit
