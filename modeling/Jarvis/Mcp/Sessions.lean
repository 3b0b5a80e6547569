import Jarvis.Pool
import Mathlib

/-!
# The MCP router: sessions of an integration

`Pool.Session`, the release functions, `Invalidate` and `reap` at the same time, for one integration
of one router. Source: `services/mcp-router/internal/upstream/upstream.go`. An entry of the pool is
named by the place where it was allocated, so one that was dropped and the one that replaces it stay
apart; a caller keeps the entry it has looked up. Every step is what a goroutine does at once: under
the mutex, or in one channel operation.
-/

namespace Jarvis.Mcp.Sessions

open Steps

/-! ### Source -/

/-- Source: `maxConcurrentPerIntegration` -/
def maxConcurrentPerIntegration : ℕ := 8

/-- Source: `entry`. The channel `slots` by the number of values in it. -/
structure Entry where
  slots : ℕ
  lastUsed : ℕ

/-- How far a call of `Session` has come. `holding`: it has its entry and waits for a slot; `out`:
the session is handed out; `released`: the release function has freed the slot and waits for the
mutex. -/
inductive Stage where
  | begun
  | connecting
  | holding (e : ℕ)
  | out (e : ℕ)
  | released (e : ℕ)
  | ended
  deriving DecidableEq

/-- The clock, the integration's entry in the pool, all entries ever allocated, and the callers. -/
structure State where
  now : ℕ
  current : Option ℕ
  entries : ℕ → Entry
  allocated : ℕ
  callers : List Stage

/-- What a caller does: the first look into the pool, the end of the handshake (or a failure of it
or of `tokens`), the slot or `ctx.Done`, and the two steps of the release function. -/
inductive Action where
  | lookUp
  | fail
  | connect
  | slot
  | cancel
  | release
  | touch
  deriving DecidableEq

inductive Event where
  | session
  | act (i : ℕ) (a : Action)
  | invalidate
  | reap
  | tick (d : ℕ)
  deriving DecidableEq

namespace State

def init : State := ⟨0, none, fun _ => ⟨0, 0⟩, 0, []⟩

def goes (s : State) (i : ℕ) (c : Stage) : State := { s with callers := s.callers.set i c }

/-- `e.lastUsed = time.Now()` -/
def touch (s : State) (e : ℕ) : State :=
  { s with entries := Function.update s.entries e { s.entries e with lastUsed := s.now } }

def setSlots (s : State) (e n : ℕ) : State :=
  { s with entries := Function.update s.entries e { s.entries e with slots := n } }

/-- A new entry is put in the pool. -/
def create (s : State) : State :=
  { s with
    current := some s.allocated
    entries := Function.update s.entries s.allocated ⟨0, s.now⟩
    allocated := s.allocated + 1 }

/-- How many sessions are handed out and not released. -/
def handedOut (s : State) : ℕ := s.callers.countP fun c => c matches .out _

end State

/-- Source: `entry`, when the mutex is taken the first time -/
def lookUp (s : State) (i : ℕ) : State :=
  match s.current with
  | some e => (s.touch e).goes i (.holding e)
  | none => s.goes i .connecting

/-- Source: `entry`, when the mutex is taken again, with a connected session -/
def enter (s : State) (i : ℕ) : State :=
  match s.current with
  -- Lost a race; the first one is kept.
  | some e => s.goes i (.holding e)
  | none => s.create.goes i (.holding s.allocated)

/-- Source: `reap`, the entries that a tick drops -/
def State.unattended (s : State) (idle e : ℕ) : Bool :=
  (s.entries e).slots = 0 && idle < s.now - (s.entries e).lastUsed

/-- Source: `reap`, at one tick -/
def reap (idle : ℕ) (s : State) : State :=
  match s.current with
  | some e => if s.unattended idle e then { s with current := none } else s
  | none => s

/-- Source: `Session`. A send on the full channel waits, and so does a receive from the empty
one. -/
def act (s : State) (i : ℕ) : Action → Stage → Option State
  | .lookUp, .begun => some (lookUp s i)
  | .fail, .connecting => some (s.goes i .ended)
  | .connect, .connecting => some (enter s i)
  | .slot, .holding e =>
    if (s.entries e).slots < maxConcurrentPerIntegration then
      some ((s.setSlots e ((s.entries e).slots + 1)).goes i (.out e))
    else none
  | .cancel, .holding _ => some (s.goes i .ended)
  | .release, .out e =>
    if 0 < (s.entries e).slots then
      some ((s.setSlots e ((s.entries e).slots - 1)).goes i (.released e)) else none
  | .touch, .released e => some ((s.touch e).goes i .ended)
  | _, _ => none

def step (idle : ℕ) (s : State) : Event → Option State
  | .session => some { s with callers := s.callers ++ [.begun] }
  | .act i a => s.callers[i]?.bind (act s i a)
  | .invalidate => some { s with current := none }
  | .reap => some (reap idle s)
  | .tick d => some { s with now := s.now + d }

/-! ### Slots -/

/-- The entry that a caller has, as long as it may put a value into its `slots` or take one out. -/
def Stage.entry? : Stage → Option ℕ
  | .holding e => some e
  | .out e => some e
  | _ => none

/-- Every entry's slots are its sessions that are handed out, and every entry in use has been
allocated. -/
structure Good (s : State) : Prop where
  slots : ∀ e, (s.entries e).slots = s.callers.count (.out e)
  few : ∀ e, (s.entries e).slots ≤ maxConcurrentPerIntegration
  known : ∀ c ∈ s.callers, ∀ e, c.entry? = some e → e < s.allocated
  current : ∀ e, s.current = some e → e < s.allocated

theorem count_set {l : List Stage} (h : l[i]? = some a) (b x : Stage) :
    (l.set i b).count x + [a].count x = l.count x + [b].count x := by
  have hset := (Pool.set_perm b h).count_eq x
  have hl := (Pool.perm_of_getElem? h).count_eq x
  rw [List.count_cons] at hset hl
  simp only [List.count_cons, List.count_nil]
  omega

variable {i : ℕ} {s s' : State} {b a : Stage}

@[simp] theorem slots_touch (e e' : ℕ) : ((s.touch e).entries e').slots = (s.entries e').slots := by
  simp only [State.touch, Function.update_apply]
  split_ifs with h
  · rw [h]
  · rfl

theorem Good.touch (h : Good s) (e : ℕ) : Good (s.touch e) where
  slots e' := by rw [slots_touch, h.slots e']; rfl
  few e' := by rw [slots_touch]; exact h.few e'
  known := h.known
  current := h.current

/-- A caller goes on without touching a slot. -/
theorem Good.goes (h : Good s) (hi : s.callers[i]? = some a) (ha : ∀ e, a ≠ .out e)
    (hb : ∀ e, b ≠ .out e)
    (hknown : ∀ e, b.entry? = some e → e < s.allocated) : Good (s.goes i b) where
  slots e := by
    have hcount := count_set hi b (.out e)
    rw [List.count_singleton, List.count_singleton, if_neg (by simp [ha e]),
      if_neg (by simp [hb e])] at hcount
    exact (h.slots e).trans hcount.symm
  few := h.few
  known c hc := by
    rcases List.mem_or_eq_of_mem_set hc with hc | rfl
    · exact h.known c hc
    · exact hknown
  current := h.current

theorem Good.create (h : Good s) : Good s.create where
  slots e := by
    by_cases he : e = s.allocated
    · -- No caller has an entry that was not allocated yet.
      have hnone : s.callers.count (.out e) = 0 := List.count_eq_zero.mpr fun hc => by
        have := h.known _ hc e rfl
        omega
      simp [State.create, he] at hnone ⊢
      exact hnone.symm
    · simp [State.create, he, h.slots e]
  few e := by
    by_cases he : e = s.allocated
    · simp [State.create, he]
    · simpa [State.create, he] using h.few e
  known c hc e he := Nat.lt_succ_of_lt (h.known c hc e he)
  current e he := by
    obtain rfl : s.allocated = e := Option.some.inj he
    exact Nat.lt_succ_self _

/-- A caller that puts a value into `slots`, or takes one out, is counted with it. -/
theorem Good.moves (h : Good s) (hi : s.callers[i]? = some a)
    (hn : n ≤ maxConcurrentPerIntegration)
    (hcount : n + [a].count (.out e) = (s.entries e).slots + [b].count (.out e))
    (ha : a.entry? = some e) (hb : ∀ x, b.entry? = some x → x = e) :
    Good ((s.setSlots e n).goes i b) where
  slots x := by
    have hset := count_set hi b (.out x)
    have hx := h.slots x
    by_cases hxe : x = e
    · subst hxe
      simp only [State.setSlots, State.goes, Function.update_self]
      omega
    · -- The other entries have neither been the caller's nor become it.
      have hna : a ≠ .out x := fun h =>
        hxe (Option.some.inj ((congrArg Stage.entry? h).symm.trans ha))
      have hnb : b ≠ .out x := fun h => hxe (hb x (congrArg Stage.entry? h))
      rw [List.count_singleton, List.count_singleton, if_neg (by simpa using hna),
        if_neg (by simpa using hnb)] at hset
      simp only [State.setSlots, State.goes, Function.update_of_ne hxe]
      omega
  few x := by
    by_cases hxe : x = e
    · simpa [State.setSlots, State.goes, hxe] using hn
    · simpa [State.setSlots, State.goes, hxe] using h.few x
  known c hc x hx := by
    rcases List.mem_or_eq_of_mem_set hc with hc | rfl
    · exact h.known c hc x hx
    · rw [hb x hx]
      exact h.known a (List.mem_of_getElem? hi) e ha
  current := h.current

theorem Good.lookUp (h : Good s) (hi : s.callers[i]? = some .begun) : Good (lookUp s i) := by
  rw [Sessions.lookUp]
  split
  next e he =>
    refine (h.touch e).goes hi (by simp) (by simp) ?_
    rintro x ⟨⟩
    exact h.current e he
  next => exact h.goes hi (by simp) (by simp) (by simp [Stage.entry?])

theorem Good.enter (h : Good s) (hi : s.callers[i]? = some .connecting) : Good (enter s i) := by
  rw [Sessions.enter]
  split
  next e he =>
    refine h.goes hi (by simp) (by simp) ?_
    rintro x ⟨⟩
    exact h.current e he
  next =>
    refine h.create.goes hi (by simp) (by simp) ?_
    rintro x ⟨⟩
    exact Nat.lt_succ_self _

variable {x : Action} {idle : ℕ} {l : Event}

theorem Good.act (h : Good s) (hi : s.callers[i]? = some a) (hact : act s i x a = some s') :
    Good s' := by
  unfold Sessions.act at hact
  split at hact
  next => exact Option.some.inj hact ▸ h.lookUp hi
  next => exact Option.some.inj hact ▸ h.goes hi (by simp) (by simp) (by simp [Stage.entry?])
  next => exact Option.some.inj hact ▸ h.enter hi
  next e =>
    split_ifs at hact with hfree
    refine Option.some.inj hact ▸ h.moves hi hfree (by simp) rfl ?_
    rintro x ⟨⟩
    rfl
  next => exact Option.some.inj hact ▸ h.goes hi (by simp) (by simp) (by simp [Stage.entry?])
  next e =>
    split_ifs at hact with htaken
    have hfew := h.few e
    refine Option.some.inj hact ▸ h.moves hi (by omega) ?_ rfl (by simp [Stage.entry?])
    rw [List.count_singleton_self, List.count_singleton, if_neg (by simp)]
    omega
  next e =>
    exact Option.some.inj hact ▸ (h.touch e).goes hi (by simp) (by simp) (by simp [Stage.entry?])
  next => exact absurd hact (by simp)

/-- A pool without an entry for the integration, or with the one it had. -/
theorem Good.drop (h : Good s) : Good { s with current := none } :=
  ⟨h.slots, h.few, h.known, by simp⟩

theorem Good.step (h : Good s) (hstep : step idle s l = some s') :
    Good s' := by
  cases l with
  | session =>
    cases hstep
    refine ⟨fun e => ?_, h.few, fun c hc e he => ?_, h.current⟩
    · rw [h.slots e, List.count_append, List.count_singleton, if_neg (by simp), Nat.add_zero]
    · rcases List.mem_append.mp hc with hc | hc
      · exact h.known c hc e he
      · obtain rfl := List.mem_singleton.mp hc
        cases he
  | act i x =>
    obtain ⟨a, hi, hact⟩ := Option.bind_eq_some_iff.mp hstep
    exact h.act hi hact
  | invalidate => exact Option.some.inj hstep ▸ h.drop
  | reap =>
    cases hstep
    rw [reap]
    split
    next =>
      split_ifs
      · exact h.drop
      · exact h
    next => exact h
  | tick d => exact Option.some.inj hstep ▸ ⟨h.slots, h.few, h.known, h.current⟩

theorem Good.init : Good .init :=
  ⟨fun _ => rfl, fun _ => Nat.zero_le _, by simp [State.init], by simp [State.init]⟩

/-! ### One entry at a time -/

/-- No caller uses the entry or has looked it up. -/
def State.unused (s : State) (e : ℕ) : Bool := s.callers.all fun c => c.entry? != some e

/-- The condition on steps: `Invalidate` finds no entry or one that is unused, and so does a tick of
`reap` at which the entry is due to be dropped. -/
def careful (idle : ℕ) (s : State) : Event → Bool
  | .invalidate => s.current.all s.unused
  | .reap => s.current.all fun e => !s.unattended idle e || s.unused e
  | _ => true

/-- All callers use the entry that is in the pool. -/
def Bound (s : State) : Prop := ∀ c ∈ s.callers, ∀ e, c.entry? = some e → s.current = some e

theorem Bound.goes (h : Bound s) (hb : ∀ e, b.entry? = some e → s.current = some e) :
    Bound (s.goes i b) := by
  intro c hc
  rcases List.mem_or_eq_of_mem_set hc with hc | rfl
  · exact h c hc
  · exact hb

theorem Bound.lookUp (h : Bound s) : Bound (lookUp s i) := by
  rw [Sessions.lookUp]
  split
  next e he =>
    refine Bound.goes (s := s.touch e) h ?_
    rintro x ⟨⟩
    exact he
  next => exact h.goes (by simp [Stage.entry?])

theorem Bound.enter (h : Bound s) : Bound (enter s i) := by
  rw [Sessions.enter]
  split
  next e he =>
    refine h.goes ?_
    rintro x ⟨⟩
    exact he
  next hnone =>
    -- Without an entry in the pool no caller has one.
    refine Bound.goes (s := s.create) (fun c hc e he => ?_) ?_
    · have := h c hc e he
      rw [hnone] at this
      cases this
    · rintro x ⟨⟩
      rfl

theorem Bound.act (h : Bound s) (hi : s.callers[i]? = some a) (hact : act s i x a = some s') :
    Bound s' := by
  have hold := h a (List.mem_of_getElem? hi)
  unfold Sessions.act at hact
  split at hact
  next => exact Option.some.inj hact ▸ h.lookUp
  next => exact Option.some.inj hact ▸ h.goes (by simp [Stage.entry?])
  next => exact Option.some.inj hact ▸ h.enter
  next e =>
    split_ifs at hact
    exact Option.some.inj hact ▸ Bound.goes (s := s.setSlots e _) h hold
  next => exact Option.some.inj hact ▸ h.goes (by simp [Stage.entry?])
  next e =>
    split_ifs at hact
    exact Option.some.inj hact ▸ Bound.goes (s := s.setSlots e _) h (by simp [Stage.entry?])
  next e => exact Option.some.inj hact ▸ Bound.goes (s := s.touch e) h (by simp [Stage.entry?])
  next => exact absurd hact (by simp)

/-- An entry that nobody uses can be dropped. -/
theorem Bound.drop (h : Bound s) (hunused : ∀ e, s.current = some e → s.unused e = true) :
    Bound { s with current := none } := by
  intro c hc e he
  have hnot := List.all_eq_true.mp (hunused e (h c hc e he)) c hc
  exact absurd he (by simpa using hnot)

theorem Bound.step (h : Bound s) (hok : careful idle s l = true) (hstep : step idle s l = some s') :
    Bound s' := by
  cases l with
  | session =>
    cases hstep
    intro c hc e he
    rcases List.mem_append.mp hc with hc | hc
    · exact h c hc e he
    · obtain rfl := List.mem_singleton.mp hc
      cases he
  | act i x =>
    obtain ⟨a, hi, hact⟩ := Option.bind_eq_some_iff.mp hstep
    exact h.act hi hact
  | invalidate => exact Option.some.inj hstep ▸ h.drop fun e he => by rwa [careful, he] at hok
  | reap =>
    cases hstep
    rw [reap]
    split
    next e he =>
      split_ifs with hdue
      · refine h.drop fun x hx => ?_
        cases he.symm.trans hx
        simpa [careful, he, hdue] using hok
      · exact h
    next => exact h
  | tick d => exact Option.some.inj hstep ▸ h

/-- All sessions that are handed out are the entry's, whose slots they have. -/
theorem Good.handedOut_le (h : Good s) (hbound : Bound s) :
    s.handedOut ≤ maxConcurrentPerIntegration := by
  cases hcur : s.current with
  | none =>
    have hzero : s.handedOut = 0 := List.countP_eq_zero.mpr fun c hc hout => by
      have := hbound c hc
      cases c with
      | out e => exact absurd (this e rfl) (by simp [hcur])
      | _ => cases hout
    omega
  | some e =>
    have hcount : s.handedOut ≤ s.callers.count (.out e) :=
      List.countP_mono_left fun c hc hout => by
      have := hbound c hc
      cases c with
      | out x =>
        have hx : some e = some x := hcur.symm.trans (this x rfl)
        simp [Option.some.inj hx]
      | _ => cases hout
    exact hcount.trans ((h.slots e).symm.le.trans (h.few e))

/-- **Releases and the bound.** In every run a release function neither blocks nor frees a slot of
another entry: a session that is handed out has a slot of its entry, and only that entry's slots
change. In every run in which `Invalidate` and `reap` drop no entry that a caller uses or waits for,
at most `maxConcurrentPerIntegration` sessions are handed out at any time. -/
theorem at_most_eight (idle : ℕ) :
    (∀ ls s, Runs (step idle) (fun _ _ => true = true) .init ls s →
      (∀ e, (s.entries e).slots = s.callers.count (.out e)) ∧
      ∀ i e, s.callers[i]? = some (.out e) → ∃ s', step idle s (.act i .release) = some s' ∧
        (s'.entries e).slots + 1 = (s.entries e).slots ∧
        ∀ x, x ≠ e → (s'.entries x).slots = (s.entries x).slots) ∧
    ∀ ls s, Runs (step idle) (fun s l => careful idle s l = true) .init ls s →
      s.handedOut ≤ maxConcurrentPerIntegration := by
  refine ⟨fun ls s hs => ?_, fun ls s hs => ?_⟩
  · have hgood : Good s := hs.inv (fun _ _ _ h _ => h.step) .init
    refine ⟨hgood.slots, fun i e hi => ?_⟩
    have hpos : 0 < (s.entries e).slots := by
      rw [hgood.slots e]
      exact List.count_pos_iff.mpr (List.mem_of_getElem? hi)
    refine ⟨(s.setSlots e ((s.entries e).slots - 1)).goes i (.released e), ?_, ?_, fun x hx => ?_⟩
    · rw [step, hi, Option.bind_some, act, if_pos hpos]
    · simp only [State.goes, State.setSlots, Function.update_self]
      omega
    · simp only [State.goes, State.setSlots, Function.update_of_ne hx]
  · have hboth : Good s ∧ Bound s := by
      refine Runs.inv (P := fun s => Good s ∧ Bound s) (fun s l s' h hok hstep => ?_) hs ?_
      · exact ⟨h.1.step hstep, h.2.step hok hstep⟩
      · exact ⟨.init, by simp [Bound, State.init]⟩
    exact hboth.1.handedOut_le hboth.2

/-- A call that finds the session in the pool. -/
def warm (i : ℕ) : List Event := [.session, .act i .lookUp, .act i .slot]

/-- The first call connects. -/
def cold (i : ℕ) : List Event := [.session, .act i .lookUp, .act i .connect, .act i .slot]

/-- Two calls; a tick of `reap` finds the entry in use and drops nothing, and a later one, after
both calls have released their sessions, drops it. -/
def quiet : List Event :=
  cold 0 ++ warm 1 ++ [.act 0 .release, .act 0 .touch, .tick 6, .reap, .act 1 .release,
    .act 1 .touch,
    .tick 6, .reap] ++ cold 2

/-- The session that replaced the dropped one is handed out. -/
theorem at_most_eight_quiet :
    (∃ s s', Runs (step 5) (fun _ _ => true = true) .init (cold 0) s ∧
      step 5 s (.act 0 .release) = some s' ∧ (s'.entries 0).slots + 1 = (s.entries 0).slots) ∧
    ∃ s, Runs (step 5) (fun s l => careful 5 s l = true) .init quiet s ∧ s.current = some 1 ∧
    s.handedOut = 1 ∧
      s.handedOut ≤ maxConcurrentPerIntegration := by
  obtain ⟨s, hs, hout⟩ : ∃ s, Runs (step 5) (fun _ _ => true = true) .init (cold 0) s ∧
      s.callers[0]? = some (.out 0) := exists_of_run (by decide +kernel)
  obtain ⟨t, ht, hcur, hone⟩ : ∃ s, Runs (step 5) (fun s l => careful 5 s l = true) .init quiet s ∧
      s.current = some 1 ∧ s.handedOut = 1 := exists_of_run (by decide +kernel)
  obtain ⟨s', hs', hslots, -⟩ := ((at_most_eight 5).1 _ s hs).2 0 0 hout
  exact ⟨⟨s, s', hs, hs', hslots⟩, t, ht, hcur, hone, (at_most_eight 5).2 _ t ht⟩

/-- One of eight calls fails: it releases its session, and `Invalidate` drops the entry that the
other seven still use. The next calls connect again and find all slots of the new entry free. -/
theorem nine_in_flight :
    ∃ s, Runs (step 5) (fun _ _ => true = true) .init
      (cold 0 ++ [1, 2, 3, 4, 5, 6, 7].flatMap warm ++
        [.act 0 .release, .act 0 .touch, .invalidate] ++ cold 8 ++ warm 9) s ∧ s.handedOut = 9 :=
  exists_of_run (by decide +kernel)

end Jarvis.Mcp.Sessions
