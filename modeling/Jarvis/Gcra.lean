import Mathlib

/-!
# The generic cell rate algorithm

A limiter remembers one time, the theoretical arrival time, if it has been asked before. A call
counts from that time or from now, whichever is later, and moves it on by `interval`; it has to wait
as long as it would leave it more than `burst` intervals ahead of now. Times are integers.
-/

namespace Jarvis.Gcra

variable (interval burst : ℤ)

/-- The time that a call counts from. -/
def start (tat : Option ℤ) (now : ℤ) : ℤ := max (tat.getD now) now

/-- How long a call has to wait; not at all if it is let through. -/
def wait (tat : Option ℤ) (now : ℤ) : ℤ := max (start tat now + interval - burst * interval - now) 0

/-- What is remembered after a call. -/
def next (tat : Option ℤ) (now : ℤ) : Option ℤ :=
  if wait interval burst tat now = 0 then some (start tat now + interval) else tat

/-- The waits of calls at these times. -/
def waits : Option ℤ → List ℤ → List ℤ
  | _, [] => []
  | tat, now :: rest => wait interval burst tat now :: waits (next interval burst tat now) rest

/-- What is remembered after calls at these times. -/
def nextAll (tat : Option ℤ) (times : List ℤ) : Option ℤ := times.foldl (next interval burst) tat

variable {interval burst} {tat : Option ℤ} {now t : ℤ}

theorem start_some (x now : ℤ) : start (some x) now = max x now := rfl

theorem start_none (now : ℤ) : start none now = now := max_self now

theorem le_start (tat : Option ℤ) (now : ℤ) : now ≤ start tat now := le_max_right _ _

/-- A time that has passed may be forgotten. -/
theorem start_none_of_le (h : x ≤ now) (hnow : now ≤ t) : start none t = start (some x) t := by
  rw [start_none, start_some]
  omega

theorem start_mono (hnow : now ≤ t) : start tat now ≤ start tat t := by
  cases tat with
  | none => rwa [start_none, start_none]
  | some x =>
    rw [start_some, start_some]
    omega

theorem wait_eq_zero : wait interval burst tat now = 0 ↔
    start tat now + interval ≤ now + burst * interval := by
  unfold wait
  omega

theorem wait_nonneg : 0 ≤ wait interval burst tat now := le_max_right _ _

/-! ### What is remembered -/

/-- No more than `burst` intervals ahead. -/
def Bounded (interval burst : ℤ) (tat : Option ℤ) (now : ℤ) : Prop :=
  start tat now ≤ now + burst * interval

theorem Bounded.mono (h : Bounded interval burst tat now) (hnow : now ≤ t) :
    Bounded interval burst tat t := by
  unfold Bounded at h ⊢
  cases tat with
  | none =>
    rw [start_none] at h ⊢
    omega
  | some x =>
    rw [start_some] at h ⊢
    omega

theorem bounded_none (hI : 0 ≤ interval) (hB : 0 ≤ burst) (now : ℤ) :
    Bounded interval burst none now := by
  have hpos := mul_nonneg hB hI
  rw [Bounded, start_none]
  omega

theorem Bounded.next (h : Bounded interval burst tat now) (hI : 0 ≤ interval) (hB : 0 ≤ burst) :
    Bounded interval burst (next interval burst tat now) now := by
  unfold Gcra.next
  split_ifs with hwait
  · have hle := wait_eq_zero.mp hwait
    have hpos := mul_nonneg hB hI
    rw [Bounded, start_some]
    omega
  · exact h

/-- After a pause of `burst` intervals, nothing is ahead. -/
theorem Bounded.start_eq (h : Bounded interval burst tat now) (hpause : now + burst * interval ≤ t)
    (hnow : now ≤ t) : start tat t = t := by
  unfold Bounded at h
  cases tat with
  | none => exact start_none t
  | some x =>
    rw [start_some] at h ⊢
    omega

/-- A wait is at most one interval. -/
theorem Bounded.wait_le (h : Bounded interval burst tat now) (hI : 0 ≤ interval) :
    wait interval burst tat now ≤ interval := by
  unfold Bounded at h
  unfold wait
  omega

/-! ### A wait is exact -/

/-- Without other calls, a call is let through as soon as the wait is over, and not before. -/
theorem wait_later (hB : 1 ≤ burst) (hI : 0 ≤ interval) (hwait : wait interval burst tat now ≠ 0) :
    wait interval burst tat t = 0 ↔ now + wait interval burst tat now ≤ t := by
  have hmul : interval ≤ burst * interval := le_mul_of_one_le_left hI hB
  cases tat with
  | none =>
    rw [Ne, wait_eq_zero, start_none] at hwait
    omega
  | some x =>
    rw [Ne, wait_eq_zero, start_some] at hwait
    rw [wait_eq_zero, wait, start_some, start_some]
    omega

/-! ### A burst after a pause -/

/-- Calls at one time, when nothing is ahead of it. -/
theorem waits_replicate (hI : 0 ≤ interval) : ∀ {n : ℕ} {tat : Option ℤ},
    start tat now + n * interval ≤ now + burst * interval →
      ∀ w ∈ waits interval burst tat (List.replicate n now), w = 0 := by
  intro n
  induction n with
  | zero =>
    intro tat _ w hw
    simp [waits] at hw
  | succ n ih =>
    intro tat hfit w hw
    have hn : (0 : ℤ) ≤ n * interval := mul_nonneg (Nat.cast_nonneg n) hI
    push_cast at hfit
    rw [add_mul, one_mul] at hfit
    have hwait : wait interval burst tat now = 0 := wait_eq_zero.mpr (by omega)
    rw [List.replicate_succ, waits, List.mem_cons] at hw
    rcases hw with rfl | hw
    · exact hwait
    · have hstart := le_start tat now
      refine ih ?_ w hw
      rw [next, if_pos hwait, start_some]
      omega

/-! ### Windows -/

/-- What is let through moves the remembered time on. -/
theorem start_next_le (hI : 0 ≤ interval) :
    start tat t ≤ start (next interval burst tat now) t := by
  unfold next
  split_ifs
  · cases tat with
    | none =>
      rw [start_none]
      exact le_start _ _
    | some x =>
      rw [start_some, start_some, start_some]
      omega
  · exact le_rfl

/-- In a window that begins at `t`, what is let through moves it on by an interval, and not too
far. -/
theorem start_next_add (hwait : wait interval burst tat now = 0) (ht : t ≤ now) (hI : 0 ≤ interval)
    (hB : 0 ≤ burst) :
    start tat t + interval ≤ start (next interval burst tat now) t ∧
      start (next interval burst tat now) t ≤ now + burst * interval := by
  have hle := wait_eq_zero.mp hwait
  have hmul := mul_nonneg hB hI
  have hmono : start tat t ≤ start tat now := start_mono ht
  rw [next, if_pos hwait, start_some]
  omega

/-- Whether a call in the window from `t` to `t + length` was let through. -/
def passes (t length : ℤ) (x : ℤ × ℤ) : Bool := t ≤ x.1 && x.1 ≤ t + length && x.2 = 0

/-- The calls let through in a window, and how far they have moved the remembered time. -/
theorem count_window_aux (hI : 1 ≤ interval) (hB : 0 ≤ burst) {length : ℤ} :
    ∀ {times : List ℤ} {tat : Option ℤ}, times.Pairwise (· ≤ ·) →
      let n := (times.zip (waits interval burst tat times)).countP (passes t length)
      n = 0 ∨ n * interval + start tat t ≤ t + length + burst * interval := by
  intro times
  induction times with
  | nil =>
    intro tat _
    exact .inl rfl
  | cons now rest ih =>
    intro tat hsorted
    obtain ⟨hle, hrest⟩ := List.pairwise_cons.mp hsorted
    have htail := @ih (next interval burst tat now) hrest
    rw [waits, List.zip_cons_cons, List.countP_cons]
    set n := (rest.zip (waits interval burst (next interval burst tat now) rest)).countP
      (passes t length) with hn
    by_cases hpass : passes t length (now, wait interval burst tat now) = true
    · -- This call is let through: it moves the remembered time on by one interval.
      have hin := hpass
      simp only [passes, Bool.and_eq_true, decide_eq_true_eq] at hin
      obtain ⟨⟨ht, hlen⟩, hwait⟩ := hin
      obtain ⟨hadd, hmax⟩ := start_next_add hwait ht (by omega) hB
      refine .inr ?_
      rw [if_pos hpass]
      push_cast
      rw [add_mul, one_mul]
      rcases htail with hzero | htail
      · rw [hzero]
        push_cast
        omega
      · omega
    · rw [if_neg hpass, Nat.add_zero]
      have hmono : start tat t ≤ start (next interval burst tat now) t := start_next_le (by omega)
      refine htail.imp_right fun htail => ?_
      omega

/-- **A window** of length `length` lets through at most `burst` calls, and one more for each
interval. -/
theorem count_window_le (hI : 1 ≤ interval) (hB : 0 ≤ burst) {length : ℤ} (hlen : 0 ≤ length)
    {times : List ℤ} (hsorted : times.Pairwise (· ≤ ·)) (tat : Option ℤ) (t : ℤ) :
    ((times.zip (waits interval burst tat times)).countP (passes t length) : ℤ) ≤
      burst + length / interval := by
  have hdiv := Int.ediv_nonneg hlen (by omega : 0 ≤ interval)
  rcases @count_window_aux interval burst t hI hB length times tat hsorted with hzero | hle
  · rw [hzero]
    push_cast
    omega
  · have hstart := le_start tat t
    rw [← sub_le_iff_le_add', Int.le_ediv_iff_mul_le (by omega), sub_mul]
    omega

end Jarvis.Gcra
