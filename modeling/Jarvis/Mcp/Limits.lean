import Jarvis.Gcra

/-!
# The MCP router: rate limits

One key of the rate limiter. Source: `services/mcp-router/internal/limits/limits.go`. The script
runs in the store, whose numbers are doubles: a whole number is rounded to the nearest one that a
double can be. `%d` prints what an `int64` holds; for more than that C says nothing, and the script
fails here. The store drops a key once its time has come, at once or later.
-/

namespace Jarvis.Mcp

open Gcra

/-! ### Source -/

/-- The double nearest to a whole number, and the even one of two. -/
def double (n : ℤ) : ℤ :=
  if |n| ≤ 2 ^ 53 then n
  else
    let ulp := 2 ^ (Nat.log2 n.natAbs - 52)
    let low := n.natAbs / ulp
    let rest := 2 * (n.natAbs % ulp)
    n.sign * ((if ulp < rest ∨ (rest = ulp ∧ low % 2 = 1) then low + 1 else low) * ulp : ℕ)

/-- The value of an `int64`. -/
def wrap (n : ℤ) : ℤ := n.bmod (2 ^ 64)

/-- Source: `rule` -/
structure Rule where
  intervalMs : ℤ
  burst : ℤ

/-- What the store holds: the number, and when it expires. -/
structure Key where
  tat : ℤ
  expireAt : ℤ
  deriving DecidableEq

/-- What the script returns. -/
inductive Reply where
  | allowed
  | refused (ms : ℤ)
  | failed
  deriving DecidableEq

/-- `GET` at `now`; a key that has expired is `gone`, or will be later. -/
def get (now : ℤ) (gone : Bool) (key : Option Key) : Option Key :=
  key.filter fun k => !(gone && k.expireAt ≤ now)

/-- Source: `gcra`; `time` is what `TIME` shows, in milliseconds -/
def gcra (r : Rule) (time : ℤ) (key : Option Key) : Reply × Option Key :=
  let interval := double r.intervalMs
  let burst := double r.burst
  let now := double (double (double (time / 1000) * 1000) + time % 1000)
  let tat := (key.map Key.tat).getD now
  let tat := if tat < now then now else tat
  let newTat := double (tat + interval)
  let allowAt := double (newTat - double (burst * interval))
  if now < allowAt then
    let ms := double (allowAt - now)
    if ms < 2 ^ 63 then (.refused ms, key) else (.failed, key)
  else
    let px := double (newTat - now)
    if newTat < 2 ^ 63 ∧ 0 < px ∧ px < 2 ^ 63 then (.allowed, some ⟨newTat, now + px⟩)
    else (.failed, key)

/-- The answer to a call: whether it is allowed, and for how many nanoseconds it is to wait; or an
error. -/
abbrev Answer := Option (Bool × ℤ)

/-- How `allow` reads a reply. -/
def Reply.answer : Reply → Answer
  | .allowed => some (true, 0)
  | .refused ms => some (false, wrap (wrap ms * 1000000))
  | .failed => none

/-- Source: `allow` -/
def allow (r : Rule) (time : ℤ) (key : Option Key) : Answer × Option Key :=
  ((gcra r time key).1.answer, (gcra r time key).2)

/-- A call: its time, and whether the store has dropped a key that has expired by then. -/
structure Call where
  time : ℤ
  gone : Bool

/-- A call on a key. -/
def Call.run (r : Rule) (key : Option Key) (c : Call) : Answer × Option Key :=
  allow r c.time (get c.time c.gone key)

/-- What the calls of a sequence are answered. -/
def answers (r : Rule) : Option Key → List Call → List Answer
  | _, [] => []
  | key, c :: cs => (c.run r key).1 :: answers r (c.run r key).2 cs

/-- What the store holds after a sequence of calls. -/
def keyAfter (r : Rule) (key : Option Key) (cs : List Call) : Option Key :=
  cs.foldl (fun key c => (c.run r key).2) key

/-! ### Numbers that are small enough -/

variable {n time : ℤ} {key : Option Key}

theorem double_eq (hlow : -2 ^ 53 ≤ n) (hhigh : n ≤ 2 ^ 53) : double n = n :=
  if_pos (abs_le.mpr ⟨hlow, hhigh⟩)

theorem wrap_eq (hlow : 0 ≤ n) (hhigh : n < 2 ^ 63) : wrap n = n := by
  unfold wrap
  rw [Int.bmod_def]
  omega

/-- A rule whose retry times are durations of Go. -/
structure Rule.Sound (r : Rule) : Prop where
  interval : 1 ≤ r.intervalMs
  burst : 1 ≤ r.burst
  duration : r.intervalMs * 1000000 < 2 ^ 63

/-- A time for which the script computes without rounding. -/
def Fits (r : Rule) (time : ℤ) : Prop :=
  0 ≤ time ∧ time + (r.burst + 1) * r.intervalMs ≤ 2 ^ 53

/-- The wait of a call as the router says it. -/
def answer (w : ℤ) : Answer := some (decide (w = 0), w * 1000000)

variable {tat : Option ℤ} {r : Rule}

/-- The numbers of the script for a time that fits. -/
structure Exact (r : Rule) (time : ℤ) (tat : Option ℤ) : Prop where
  interval : double r.intervalMs = r.intervalMs
  burst : double r.burst = r.burst
  now : double (double (double (time / 1000) * 1000) + time % 1000) = time
  first : (if tat.getD time < time then time else tat.getD time) = start tat time
  next : double (start tat time + r.intervalMs) = start tat time + r.intervalMs
  window : double (r.burst * r.intervalMs) = r.burst * r.intervalMs

section

variable (hr : r.Sound) (hfit : Fits r time)
include hr hfit

/-- A time that fits, with the product of the rule as one number. -/
theorem Fits.bounds (hb : Bounded r.intervalMs r.burst tat time) :
    0 ≤ time ∧ r.burst ≤ r.burst * r.intervalMs ∧ r.intervalMs ≤ r.burst * r.intervalMs ∧
      time ≤ start tat time ∧ start tat time ≤ time + r.burst * r.intervalMs ∧
      time + r.burst * r.intervalMs + r.intervalMs ≤ 2 ^ 53 := by
  obtain ⟨hI, hB, -⟩ := hr
  obtain ⟨hpos, hmax⟩ := hfit
  refine ⟨hpos, le_mul_of_one_le_right (by omega) hI, le_mul_of_one_le_left (by omega) hB,
    le_start tat time, hb, ?_⟩
  rw [add_mul, one_mul] at hmax
  omega

theorem Fits.exact (hb : Bounded r.intervalMs r.burst tat time) : Exact r time tat := by
  obtain ⟨hpos, hB, hI, hlow, hhigh, hmax⟩ := hfit.bounds hr hb
  have hr1 := hr.interval
  have hr2 := hr.burst
  refine ⟨double_eq (by omega) (by omega), double_eq (by omega) (by omega), ?_, ?_,
    double_eq (by omega) (by omega), double_eq (by omega) (by omega)⟩
  · rw [double_eq (n := time / 1000) (by omega) (by omega),
      double_eq (n := time / 1000 * 1000) (by omega) (by omega),
      double_eq (by omega) (by omega)]
    omega
  · unfold start
    split_ifs <;> omega

/-- **The script computes the algorithm.** -/
theorem gcra_eq (hb : Bounded r.intervalMs r.burst (key.map Key.tat) time) : gcra r time key =
      let tat := key.map Key.tat
      if wait r.intervalMs r.burst tat time = 0 then
        (.allowed, some ⟨start tat time + r.intervalMs, start tat time + r.intervalMs⟩)
      else (.refused (wait r.intervalMs r.burst tat time), key) := by
  have he := hfit.exact hr hb
  obtain ⟨hpos, hB, hI, hlow, hhigh, hmax⟩ := hfit.bounds hr hb
  have hr1 := hr.interval
  have hwait : wait r.intervalMs r.burst (key.map Key.tat) time =
      max (start (key.map Key.tat) time + r.intervalMs - r.burst * r.intervalMs - time) 0 := rfl
  dsimp only [gcra]
  rw [he.interval, he.burst, he.now, he.first, he.next, he.window]
  set t := start (key.map Key.tat) time
  set m := r.burst * r.intervalMs
  rw [double_eq (n := t + r.intervalMs - m) (by omega) (by omega)]
  by_cases hlt : time < t + r.intervalMs - m
  · have hne : wait r.intervalMs r.burst (key.map Key.tat) time ≠ 0 := by omega
    have hms : t + r.intervalMs - m - time < 2 ^ 63 := by omega
    rw [if_pos hlt, if_neg hne, double_eq (by omega) (by omega), if_pos hms, hwait,
      max_eq_left (by omega)]
  · have hzero : wait r.intervalMs r.burst (key.map Key.tat) time = 0 := by omega
    have hset : t + r.intervalMs < 2 ^ 63 ∧ 0 < t + r.intervalMs - time ∧
        t + r.intervalMs - time < 2 ^ 63 := by omega
    rw [if_neg hlt, if_pos hzero, double_eq (n := t + r.intervalMs - time) (by omega) (by omega),
      if_pos hset, add_sub_cancel]

/-- The answer of the router and what the store holds then. -/
theorem allow_eq (hb : Bounded r.intervalMs r.burst (key.map Key.tat) time) : allow r time key =
      let tat := key.map Key.tat
      (answer (wait r.intervalMs r.burst tat time),
        if wait r.intervalMs r.burst tat time = 0 then
          some ⟨start tat time + r.intervalMs, start tat time + r.intervalMs⟩
        else key) := by
  have hle : wait r.intervalMs r.burst (key.map Key.tat) time ≤ r.intervalMs :=
    hb.wait_le (by have := hr.interval; omega)
  have hpos : 0 ≤ wait r.intervalMs r.burst (key.map Key.tat) time := wait_nonneg
  have hdur := hr.duration
  rw [allow, gcra_eq hr hfit hb]
  dsimp only
  by_cases hzero : wait r.intervalMs r.burst (key.map Key.tat) time = 0
  · rw [if_pos hzero, if_pos hzero, hzero]
    rfl
  · have hms : wrap (wait r.intervalMs r.burst (key.map Key.tat) time) =
        wait r.intervalMs r.burst (key.map Key.tat) time := wrap_eq hpos (by omega)
    rw [if_neg hzero, if_neg hzero, answer, decide_eq_false hzero]
    dsimp only [Reply.answer]
    rw [hms, wrap_eq (by omega) (by omega)]

end

/-! ### Keys -/

/-- A key is as good as the remembered time from `now` on. -/
structure Tracks (r : Rule) (key : Option Key) (tat : Option ℤ) (now : ℤ) : Prop where
  start : ∀ t, now ≤ t → start (key.map Key.tat) t = Gcra.start tat t
  expire : ∀ k ∈ key, k.expireAt = k.tat
  bounded : Bounded r.intervalMs r.burst tat now

section

variable {now t : ℤ}

theorem Tracks.init (hr : r.Sound) (now : ℤ) : Tracks r none none now where
  start _ _ := rfl
  expire := by simp
  bounded := bounded_none (by have := hr.interval; omega) (by have := hr.burst; omega) now

theorem Tracks.mono (h : Tracks r key tat now) (hnow : now ≤ t) : Tracks r key tat t where
  start _ ht := h.start _ (hnow.trans ht)
  expire := h.expire
  bounded := h.bounded.mono hnow

/-- A key that is dropped has nothing left to say. -/
theorem Tracks.get (h : Tracks r key tat now) (gone : Bool) :
    Tracks r (get now gone key) tat now := by
  cases key with
  | none => exact h
  | some k =>
    by_cases hgone : (gone && decide (k.expireAt ≤ now)) = true
    · have hnone : Mcp.get now gone (some k) = none := by simp [Mcp.get, Option.filter, hgone]
      have hle : k.tat ≤ now := by
        rw [← h.expire k rfl]
        simp only [Bool.and_eq_true, decide_eq_true_eq] at hgone
        exact hgone.2
      rw [hnone]
      refine ⟨fun t ht => ?_, by simp, h.bounded⟩
      rw [← h.start t ht]
      exact start_none_of_le hle ht
    · have hsome : Mcp.get now gone (some k) = some k := by simp [Mcp.get, Option.filter, hgone]
      rwa [hsome]

theorem Tracks.wait (h : Tracks r key tat now) (ht : now ≤ t) :
    wait r.intervalMs r.burst (key.map Key.tat) t = Gcra.wait r.intervalMs r.burst tat t := by
  unfold Gcra.wait
  rw [h.start t ht]

/-- **One call**: the answer is the algorithm's, a refused one leaves the key, and the key is as
good as the remembered time again. -/
theorem Tracks.run (hr : r.Sound) (h : Tracks r key tat now) {c : Call} (hc : now ≤ c.time)
    (hfit : Fits r c.time) :
    (c.run r key).1 = answer (Gcra.wait r.intervalMs r.burst tat c.time) ∧
      (Gcra.wait r.intervalMs r.burst tat c.time ≠ 0 →
        (c.run r key).2 = Mcp.get c.time c.gone key) ∧
      Tracks r (c.run r key).2 (next r.intervalMs r.burst tat c.time) c.time := by
  have hget := (h.mono hc).get c.gone
  have hI : 0 ≤ r.intervalMs := by have := hr.interval; omega
  have hB : 0 ≤ r.burst := by have := hr.burst; omega
  have hb : Bounded r.intervalMs r.burst ((Mcp.get c.time c.gone key).map Key.tat) c.time := by
    rw [Bounded, hget.start _ le_rfl]
    exact hget.bounded
  have hrun := allow_eq hr hfit hb
  dsimp only at hrun
  rw [hget.wait le_rfl, hget.start _ le_rfl] at hrun
  rw [Call.run, hrun]
  refine ⟨rfl, fun hne => if_neg hne, ?_⟩
  by_cases hzero : Gcra.wait r.intervalMs r.burst tat c.time = 0
  · have hbounded := hget.bounded.next hI hB
    rw [next, if_pos hzero] at hbounded ⊢
    rw [if_pos hzero]
    exact ⟨fun t _ => rfl, by simp, hbounded⟩
  · rw [next, if_neg hzero, if_neg hzero]
    exact hget

/-- **Any calls**: the answers are the algorithm's. -/
theorem Tracks.answers (hr : r.Sound) {cs : List Call} : ∀ {key tat now}, Tracks r key tat now →
    (∀ c ∈ cs, now ≤ c.time) → (cs.map Call.time).Pairwise (· ≤ ·) → (∀ c ∈ cs, Fits r c.time) →
      answers r key cs = (waits r.intervalMs r.burst tat (cs.map Call.time)).map answer ∧
      ∀ t, now ≤ t → (∀ c ∈ cs, c.time ≤ t) →
        Tracks r (keyAfter r key cs) (nextAll r.intervalMs r.burst tat (cs.map Call.time)) t := by
  induction cs with
  | nil =>
    intro key tat now h _ _ _
    exact ⟨rfl, fun t ht _ => h.mono ht⟩
  | cons c cs ih =>
    intro key tat now h hfrom hsorted hfit
    obtain ⟨hle, hrest⟩ := List.pairwise_cons.mp hsorted
    obtain ⟨hanswer, -, hnext⟩ :=
      h.run hr (hfrom c List.mem_cons_self) (hfit c List.mem_cons_self)
    have hafter : ∀ d ∈ cs, c.time ≤ d.time := fun d hd => hle _ (List.mem_map_of_mem hd)
    obtain ⟨htail, hend⟩ := ih hnext hafter hrest fun d hd => hfit d (List.mem_cons_of_mem c hd)
    refine ⟨?_, fun t _ hlate => ?_⟩
    · rw [Mcp.answers, List.map_cons, waits, List.map_cons, hanswer, htail]
    · exact hend t (hlate c List.mem_cons_self) fun d hd => hlate d (List.mem_cons_of_mem c hd)

end

/-! ### Sequences of calls -/

/-- Calls on one key that the script computes without rounding, by a clock that does not go back. -/
structure Timed (r : Rule) (cs : List Call) : Prop where
  rule : r.Sound
  sorted : (cs.map Call.time).Pairwise (· ≤ ·)
  fits : ∀ c ∈ cs, Fits r c.time

/-- Whether a call in the window from `t` to `t + length` was allowed. -/
def allowedIn (t length : ℤ) (x : Call × Answer) : Bool :=
  t ≤ x.1.time && x.1.time ≤ t + length && x.2.any Prod.fst

/-- The same call of a store that drops nothing. -/
def Call.kept (c : Call) : Call := { c with gone := false }

section

variable {cs : List Call}

theorem Timed.answers (h : Timed r cs) :
    answers r none cs = (waits r.intervalMs r.burst none (cs.map Call.time)).map answer :=
  ((Tracks.init h.rule 0).answers h.rule (fun c hc => (h.fits c hc).1) h.sorted h.fits).1

theorem Timed.kept (h : Timed r cs) : Timed r (cs.map Call.kept) where
  rule := h.rule
  sorted := by
    rw [List.map_map]
    exact h.sorted
  fits c hc := by
    obtain ⟨d, hd, rfl⟩ := List.mem_map.mp hc
    exact h.fits d hd

theorem allowedIn_answer (t length : ℤ) (x : Call × ℤ) :
    allowedIn t length (Prod.map id answer x) = passes t length (Prod.map Call.time id x) := by
  simp [allowedIn, passes, answer]

theorem Timed.count_le (h : Timed r cs) {length : ℤ} (hlen : 0 ≤ length) (t : ℤ) :
    ((cs.zip (Mcp.answers r none cs)).countP (allowedIn t length) : ℤ) ≤
      r.burst + length / r.intervalMs := by
  have hB : 0 ≤ r.burst := le_trans zero_le_one h.rule.burst
  have hcount := count_window_le h.rule.interval hB hlen h.sorted none t
  rw [← List.map_id (waits r.intervalMs r.burst none _), List.zip_map, List.countP_map] at hcount
  rw [h.answers, ← List.map_id cs, List.zip_map, List.countP_map, List.map_id]
  have heq : allowedIn t length ∘ Prod.map id answer = passes t length ∘ Prod.map Call.time id :=
    funext (allowedIn_answer t length)
  rwa [heq]

variable {before after : List Call}

/-- The calls before the last ones, and the key they leave. -/
theorem Timed.tracks (h : Timed r (before ++ rest)) (ht : 0 ≤ t)
    (hbefore : ∀ c ∈ before, c.time ≤ t) :
    Tracks r (keyAfter r none before)
      (nextAll r.intervalMs r.burst none (before.map Call.time)) t := by
  have hsorted := h.sorted
  rw [List.map_append] at hsorted
  have hfits : ∀ c ∈ before, Fits r c.time := fun c hc => h.fits c (List.mem_append_left rest hc)
  exact ((Tracks.init h.rule 0).answers h.rule (fun c hc => (hfits c hc).1)
    (List.pairwise_append.mp hsorted).1 hfits).2 t ht hbefore

/-- After a pause, a burst is allowed. -/
theorem Timed.burst {burst : List Call} {now : ℤ} (h : Timed r (before ++ burst ++ after))
    (hlen : (burst.length : ℤ) ≤ r.burst) (hnow : ∀ c ∈ burst, c.time = now)
    (hpause : ∀ c ∈ before, c.time + r.burst * r.intervalMs ≤ now) (hfit : Fits r now) :
    ∀ a ∈ Mcp.answers r (keyAfter r none before) burst, a = some (true, 0) := by
  have hI : 0 ≤ r.intervalMs := le_trans zero_le_one h.rule.interval
  have hmul : 0 ≤ r.burst * r.intervalMs := mul_nonneg (le_trans zero_le_one h.rule.burst) hI
  rw [List.append_assoc] at h
  have htracks := h.tracks hfit.1 fun c hc => by have := hpause c hc; omega
  set tat := nextAll r.intervalMs r.burst none (before.map Call.time) with htat
  have hstart : start tat now = now := by
    by_cases hearly : 0 ≤ now - r.burst * r.intervalMs
    · have hb := (h.tracks hearly fun c hc => by have := hpause c hc; omega).bounded
      exact hb.start_eq (by omega) (by omega)
    · have hnil : before = [] := by
        refine List.eq_nil_iff_forall_not_mem.mpr fun c hc => hearly ?_
        have hpos := (h.fits c (List.mem_append_left _ hc)).1
        have := hpause c hc
        omega
      rw [htat, hnil]
      exact start_none now
  have htimes : burst.map Call.time = List.replicate burst.length now :=
    List.eq_replicate_iff.mpr ⟨List.length_map _, by simpa using hnow⟩
  have hsorted : (burst.map Call.time).Pairwise (· ≤ ·) := by
    rw [htimes]
    exact List.pairwise_replicate.mpr (.inr le_rfl)
  obtain ⟨hanswers, -⟩ := htracks.answers h.rule (fun c hc => (hnow c hc).ge) hsorted
    (fun c hc => by rw [hnow c hc]; exact hfit)
  intro a ha
  rw [hanswers, htimes] at ha
  obtain ⟨w, hw, rfl⟩ := List.mem_map.mp ha
  have hroom : start tat now + burst.length * r.intervalMs ≤ now + r.burst * r.intervalMs := by
    have := mul_le_mul_of_nonneg_right hlen hI
    omega
  rw [waits_replicate hI hroom w hw]
  rfl

/-- A refused call leaves the key, and its retry time is exact. -/
theorem Timed.refused {c : Call} (h : Timed r (before ++ c :: after)) {ns : ℤ}
    (hrefused : (c.run r (keyAfter r none before)).1 = some (false, ns)) :
    (c.run r (keyAfter r none before)).2 = get c.time c.gone (keyAfter r none before) ∧
      ∃ ms, 0 < ms ∧ ns = ms * 1000000 ∧ ∀ d : Call, c.time ≤ d.time → Fits r d.time →
        if c.time + ms ≤ d.time then
          (d.run r (c.run r (keyAfter r none before)).2).1 = some (true, 0)
        else ∃ left, (d.run r (c.run r (keyAfter r none before)).2).1 = some (false, left) := by
  have hc : c ∈ before ++ c :: after := by simp
  have hsorted := h.sorted
  rw [List.map_append, List.pairwise_append] at hsorted
  have hbefore : ∀ d ∈ before, d.time ≤ c.time := fun d hd =>
    hsorted.2.2 _ (List.mem_map_of_mem hd) _ (by simp)
  obtain ⟨hanswer, hkeep, hnext⟩ :=
    (h.tracks (h.fits c hc).1 hbefore).run h.rule le_rfl (h.fits c hc)
  set tat := nextAll r.intervalMs r.burst none (before.map Call.time)
  rw [hrefused] at hanswer
  obtain ⟨hwait, hns⟩ : wait r.intervalMs r.burst tat c.time ≠ 0 ∧
      ns = wait r.intervalMs r.burst tat c.time * 1000000 := by
    simpa [answer] using hanswer
  have hpos : 0 ≤ wait r.intervalMs r.burst tat c.time := wait_nonneg
  refine ⟨hkeep hwait, wait r.intervalMs r.burst tat c.time, by omega, hns, fun d hd hfit => ?_⟩
  rw [next, if_neg hwait] at hnext
  have hlater : wait r.intervalMs r.burst tat d.time = 0 ↔ _ := wait_later (t := d.time)
    h.rule.burst (le_trans zero_le_one h.rule.interval) hwait
  rw [(hnext.run h.rule hd hfit).1]
  split_ifs with htime
  · rw [hlater.mpr htime]
    rfl
  · exact ⟨_, by rw [answer, decide_eq_false (mt hlater.mp htime)]⟩

/-- **The rate limiter**, for calls that are timed well: it answers all of them; a window lets at
most the burst and one more for each interval through; after a pause a burst is allowed; a refused
call leaves the key and is told exactly how long to wait; and it does not matter which expired keys
are dropped. -/
theorem limiter_exact (h : Timed r cs) :
    (∀ a ∈ Mcp.answers r none cs, a ≠ none) ∧
    (∀ t length, 0 ≤ length →
      ((cs.zip (Mcp.answers r none cs)).countP (allowedIn t length) : ℤ) ≤
        r.burst + length / r.intervalMs) ∧
    (∀ before burst after now, cs = before ++ burst ++ after → burst ≠ [] →
      (burst.length : ℤ) ≤ r.burst → (∀ c ∈ burst, c.time = now) →
      (∀ c ∈ before, c.time + r.burst * r.intervalMs ≤ now) →
        ∀ a ∈ Mcp.answers r (keyAfter r none before) burst, a = some (true, 0)) ∧
    (∀ before c after ns, cs = before ++ c :: after →
      (c.run r (keyAfter r none before)).1 = some (false, ns) →
        (c.run r (keyAfter r none before)).2 = get c.time c.gone (keyAfter r none before) ∧
        ∃ ms, 0 < ms ∧ ns = ms * 1000000 ∧ ∀ d : Call, c.time ≤ d.time → Fits r d.time →
          if c.time + ms ≤ d.time then
            (d.run r (c.run r (keyAfter r none before)).2).1 = some (true, 0)
          else ∃ left, (d.run r (c.run r (keyAfter r none before)).2).1 = some (false, left)) ∧
    Mcp.answers r none cs = Mcp.answers r none (cs.map Call.kept) := by
  refine ⟨fun a ha => ?_, fun t length hlen => h.count_le hlen t, ?_, ?_, ?_⟩
  · rw [h.answers] at ha
    obtain ⟨w, -, rfl⟩ := List.mem_map.mp ha
    simp [answer]
  · rintro before burst after now rfl hne hlen hnow hpause
    obtain ⟨c, hc⟩ := List.exists_mem_of_ne_nil burst hne
    have hfit : Fits r now := by
      rw [← hnow c hc]
      exact h.fits c (by simp [hc])
    exact h.burst hlen hnow hpause hfit
  · rintro before c after ns rfl hrefused
    exact h.refused hrefused
  · rw [h.answers, h.kept.answers, List.map_map]
    rfl

end

/-- Two calls a second: of three at once the third is refused for half a second. -/
theorem limiter_exact_three :
    Mcp.answers ⟨500, 2⟩ none [⟨0, true⟩, ⟨0, true⟩, ⟨0, true⟩] =
        [some (true, 0), some (true, 0), some (false, 500000000)] ∧
      (([⟨0, true⟩, ⟨0, true⟩, ⟨0, true⟩] : List Call).zip (Mcp.answers ⟨500, 2⟩ none
        [⟨0, true⟩, ⟨0, true⟩, ⟨0, true⟩])).countP (allowedIn 0 100) ≤ (2 + 100 / 500 : ℤ) := by
  refine ⟨by decide +kernel, (limiter_exact (r := ⟨500, 2⟩) ⟨⟨?_, ?_, ?_⟩, ?_, ?_⟩).2.1 0 100 ?_⟩
  · decide
  · decide
  · decide +kernel
  · decide
  · simp [Fits]
  · decide

/-- An interval of ten million million milliseconds: the retry time is no `time.Duration`. And at a
time that a double can just be, the interval is lost, and the key cannot be set. -/
theorem answers_out_of_range :
    Mcp.answers ⟨10000000000000, 1⟩ none [⟨0, false⟩, ⟨0, false⟩] =
        [some (true, 0), some (false, -8446744073709551616)] ∧
      Mcp.answers ⟨1, 1⟩ none [⟨9007199254740992, false⟩] = [none] := by
  decide +kernel

end Jarvis.Mcp
