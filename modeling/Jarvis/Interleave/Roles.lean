import Jarvis.Interleave.Machine

/-!
# Roles held by one thread at a time

Some jobs act in a role (a worker, say) that a process gives out when it starts and that a job can
only hand on. `Reach.exclusive`: at any time at most one live thread has a given role.
-/

namespace Jarvis.Interleave

variable {I : Type} {R : I → Type} {S O J V T : Type}

/-- How a machine treats roles: requests have none, each process starts with its own, and a job
hands on at most the role it has. -/
structure Roles (M : Machine I R S O J V) (Q : J → Past I R → List J → Prop) (role : J → Option T)
    (procOf : T → ℕ) : Prop where
  request : ∀ j, M.isRequest j = true → role j = none
  daemon : ∀ p, ∀ t ∈ (M.daemons p).filterMap role, procOf t = p
  nodup : ∀ p, ((M.daemons p).filterMap role).Nodup
  hand : ∀ j past js, Q j past js → (js.filterMap role).Nodup ∧
    ∀ t ∈ js.filterMap role, role j = some t

/-- At most one live thread has a given role, and only processes that have started gave any out. -/
structure Exclusive (role : J → Option T) (procOf : T → ℕ) (c : Config I R S J) : Prop where
  tid_lt : ∀ tid th, c.threads tid = some th → tid < c.nextTid
  proc_lt : ∀ tid th t, c.threads tid = some th → role th.job = some t → procOf t < c.nextProc
  unique : ∀ tid tid' th th' t, c.threads tid = some th → c.threads tid' = some th' →
    role th.job = some t → role th'.job = some t → tid = tid'

namespace Exclusive

variable {role : J → Option T} {procOf : T → ℕ} {c : Config I R S J}

/-- A job may start if nobody has its role. -/
theorem start (h : Exclusive role procOf c) (body : J → Prog I R (List J)) (p : ℕ) (j : J)
    (hj : ∀ t, role j = some t → procOf t < c.nextProc ∧
      ∀ tid th, c.threads tid = some th → role th.job ≠ some t) :
    Exclusive role procOf (c.start body p j) where
  tid_lt tid th hth := by
    rcases c.start_threads body hth with ⟨rfl, -⟩ | ⟨-, hth⟩
    · exact Nat.lt_succ_self _
    · exact Nat.lt_succ_of_lt (h.tid_lt _ _ hth)
  proc_lt tid th t hth ht := by
    rcases c.start_threads body hth with ⟨-, rfl⟩ | ⟨-, hth⟩
    · exact (hj t ht).1
    · exact h.proc_lt _ _ _ hth ht
  unique tid tid' th th' t hth hth' ht ht' := by
    rcases c.start_threads body hth with ⟨rfl, rfl⟩ | ⟨-, hth⟩
    · rcases c.start_threads body hth' with ⟨rfl, -⟩ | ⟨-, hth'⟩
      · rfl
      · exact absurd ht' ((hj t ht).2 _ _ hth')
    · rcases c.start_threads body hth' with ⟨rfl, rfl⟩ | ⟨-, hth'⟩
      · exact absurd ht ((hj t ht').2 _ _ hth)
      · exact h.unique _ _ _ _ _ hth hth' ht ht'

/-- Jobs may start if their roles differ and nobody has them. -/
theorem startAll (h : Exclusive role procOf c) (body : J → Prog I R (List J)) (p : ℕ) (js : List J)
    (hn : (js.filterMap role).Nodup) (hj : ∀ t ∈ js.filterMap role, procOf t < c.nextProc ∧
      ∀ tid th, c.threads tid = some th → role th.job ≠ some t) :
    Exclusive role procOf (c.startAll body p js) := by
  induction js generalizing c with
  | nil => exact h
  | cons j js ih =>
    have hstart : Exclusive role procOf (c.start body p j) :=
      h.start body p j fun t ht => hj t (by simp [ht])
    refine ih hstart ?_ fun t ht => ⟨(hj t ?_).1, fun tid th hth => ?_⟩
    · exact hn.sublist ((List.sublist_cons_self j js).filterMap role)
    · exact ((List.sublist_cons_self j js).filterMap role).subset ht
    · rcases c.start_threads body hth with ⟨-, rfl⟩ | ⟨-, hth⟩
      · intro hr
        rw [List.filterMap_cons_some hr] at hn
        exact (List.nodup_cons.mp hn).1 ht
      · exact (hj t (((List.sublist_cons_self j js).filterMap role).subset ht)).2 _ _ hth

end Exclusive

/-- **At any time at most one live thread has a given role.** -/
theorem Reach.exclusive {ok : Config I R S J → Label O J V → Prop} {Φ : J → Past I R → I → Prop}
    {Q : J → Past I R → List J → Prop} {role : J → Option T} {procOf : T → ℕ}
    (hbody : ∀ j, (M.body j).Spec (Φ j) (Q j) []) (hM : Roles M Q role procOf)
    (h : Reach M ok (.init s₀) c) : Exclusive role procOf c := by
  refine h.induct ?_ ?_ ?_ ?_ ?_ ?_
  · constructor <;> simp [Config.init]
  · intro c _ hc
    have hc' : Exclusive role procOf { c with
        nextProc := c.nextProc + 1, live := c.nextProc :: c.live } :=
      ⟨hc.tid_lt, fun _ _ _ hth ht => Nat.lt_succ_of_lt (hc.proc_lt _ _ _ hth ht), hc.unique⟩
    refine hc'.startAll _ _ _ (hM.nodup _) fun t ht => ?_
    have hp := hM.daemon _ t ht
    refine ⟨by simp [hp], fun tid th hth htag => ?_⟩
    have := hc.proc_lt _ _ _ hth htag
    omega
  · exact fun c p j _ hc hj _ => hc.start _ _ _ fun t ht => by simp [hM.request j hj] at ht
  · intro c tid o th i k r s hr hc _ hf
    have hs := (hr.threaded hbody).spec _ _ hf.thread
    rw [hf.prog] at hs
    have hq := hs.2 r
    unfold Machine.fire
    rcases hk : k r with js | ⟨i', k'⟩
    · rw [hk] at hq
      have hhand := hM.hand _ _ _ hq
      have hdrop : Exclusive role procOf ((c.record ⟨tid, th.job, ⟨i, r⟩, c.shared, s⟩).drop tid) :=
        ⟨fun _ _ hth => hc.tid_lt _ _ (Config.drop_threads _ hth).2,
          fun _ _ _ hth => hc.proc_lt _ _ _ (Config.drop_threads _ hth).2,
          fun _ _ _ _ _ hth hth' => hc.unique _ _ _ _ _ (Config.drop_threads _ hth).2
            (Config.drop_threads _ hth').2⟩
      refine hdrop.startAll _ _ _ hhand.1 fun t ht => ?_
      have htag := hhand.2 t ht
      refine ⟨hc.proc_lt _ _ _ hf.thread htag, fun tid' th' hth' htag' => ?_⟩
      obtain ⟨hne, hth'⟩ := Config.drop_threads _ hth'
      exact hne (hc.unique _ _ _ _ _ hth' hf.thread htag' htag)
    · -- The thread stays what it was.
      have back : ∀ {tid' : ℕ} {th' : Thread I R J}, Function.update c.threads tid
          (some ⟨th.proc, th.job, ⟨i, r⟩ :: th.past, .act i' k'⟩) tid' = some th' →
          ∃ th'', c.threads tid' = some th'' ∧ th''.job = th'.job := by
        intro tid' th' hth'
        by_cases ht : tid' = tid
        · subst ht
          rw [Function.update_self] at hth'
          exact ⟨th, hf.thread, by rw [← Option.some.inj hth']⟩
        · rw [Function.update_of_ne ht] at hth'
          exact ⟨th', hth', rfl⟩
      refine ⟨fun tid' th' hth' => ?_, fun tid' th' t hth' ht => ?_,
        fun tid₁ tid₂ th₁ th₂ t hth₁ hth₂ ht₁ ht₂ => ?_⟩
      · obtain ⟨th'', hth'', -⟩ := back hth'
        exact hc.tid_lt _ _ hth''
      · obtain ⟨th'', hth'', hj⟩ := back hth'
        exact hc.proc_lt _ _ _ hth'' (by rw [hj]; exact ht)
      · obtain ⟨_, h₁, hj₁⟩ := back hth₁
        obtain ⟨_, h₂, hj₂⟩ := back hth₂
        exact hc.unique _ _ _ _ _ h₁ h₂ (by rw [hj₁]; exact ht₁) (by rw [hj₂]; exact ht₂)
  · exact fun c v s _ hc _ _ => ⟨hc.tid_lt, hc.proc_lt, hc.unique⟩
  · exact fun c p _ hc _ => ⟨fun _ _ hth => hc.tid_lt _ _ (c.stop_threads hth).1,
      fun _ _ _ hth => hc.proc_lt _ _ _ (c.stop_threads hth).1,
      fun _ _ _ _ _ hth hth' => hc.unique _ _ _ _ _ (c.stop_threads hth).1
        (c.stop_threads hth').1⟩

end Jarvis.Interleave
