import Jarvis.Pool
import Jarvis.Table
import Mathlib

/-!
# The dashboard: signing in with a passkey

Sign-ins that run at the same time. Source: `apps/dashboard/src/server/auth/passkeys.ts`
(`finishSignIn`) and `apps/dashboard/src/server/store/accounts.ts` (`findPasskey`,
`recordPasskeyUse`). A sign-in reads the passkey, verifies the response against what it read, and
writes the new counter, in statements of their own. What it does after that (the session, the audit
event) changes no passkey, and is left out: who signs in has recorded the counter before.
`verifyAuthenticationResponse` is a parameter.
-/

namespace Jarvis.Dashboard

open Steps Pool

/-! ### Source -/

/-- Source: `Passkey`, what is used of it -/
structure Passkey where
  credentialId : String
  userId : ℕ
  counter : ℕ
  deriving DecidableEq

/-- Source: `User` -/
structure User where
  id : ℕ
  webauthnUserId : String
  deriving DecidableEq

structure DB where
  passkeys : List Passkey
  users : List User

/-- Source: `AuthenticationResponseJSON`; `counter` is the one that the authenticator signed -/
structure Response where
  id : String
  userHandle : Option String
  counter : ℕ
  deriving DecidableEq

/-- How a sign-in ends: it was refused for a reason, it failed, or its counter was recorded. -/
inductive Reply where
  | failed
  | refused (reason : String)
  | signedIn
  deriving DecidableEq

/-- How far a sign-in has come. -/
inductive Stage where
  | begun
  | found (passkey : Passkey)
  | verified (passkey : Passkey)
  deriving DecidableEq

/-- Source: `findPasskey` -/
def findPasskey (db : DB) (id : String) : Option Passkey :=
  Table.row Passkey.credentialId id db.passkeys

/-- Source: `recordPasskeyUse` -/
def recordPasskeyUse (db : DB) (id : String) (counter : ℕ) : DB :=
  { db with
    passkeys := Table.set (fun p => p.credentialId = id) (fun p => { p with counter }) db.passkeys }

/-- Whether the authenticator signed for another account. -/
def wrongAccount (response : Response) (user : User) : Bool :=
  response.userHandle.any fun handle => handle ≠ "" && handle ≠ user.webauthnUserId

/-- Source: `finishSignIn`; a statement may fail (`up`) -/
def next (verify : Passkey → Response → Bool) (db : DB) (response : Response) (stage : Stage)
    (_ : List (Response × Stage)) (up : Bool) : Option (Outcome DB Stage Reply) :=
  some <|
    if up = false then .done db .failed
    else match stage with
      | .begun =>
        match findPasskey db response.id with
        | none => .done db .failed
        | some passkey => .more db (.found passkey)
      | .found passkey =>
        match Table.row User.id passkey.userId db.users with
        | none => .done db .failed
        | some user =>
          if wrongAccount response user then .done db (.refused "wrong_account")
          else if verify passkey response then .more db (.verified passkey)
          else .done db (.refused "passkey_not_verified")
      | .verified passkey =>
        .done (recordPasskeyUse db passkey.credentialId response.counter) .signedIn

def signIns (verify : Passkey → Response → Bool) : System DB Response Stage Reply Bool Empty where
  enter _ := .begun
  next := next verify
  env e _ := e.elim

/-- A response is accepted only if its counter is greater than the stored one, or both are zero. -/
def CountsUp (verify : Passkey → Response → Bool) : Prop :=
  ∀ passkey response, verify passkey response = true →
    passkey.counter < response.counter ∨ (passkey.counter = 0 ∧ response.counter = 0)

/-! ### What a statement comes to -/

variable {verify : Passkey → Response → Bool} {db : DB}

section

variable {db' : DB} {response : Response} {stage stage' : Stage} {others : List (Response × Stage)}
  {up : Bool} {reply : Reply}

/-- A statement that leaves the sign-in going changes nothing. -/
theorem next_more (h : next verify db response stage others up = some (.more db' stage')) :
    db' = db ∧ ((∃ p, stage' = .found p ∧ findPasskey db response.id = some p) ∨
      ∃ p, stage = .found p ∧ stage' = .verified p ∧ verify p response = true) := by
  unfold next at h
  replace h := Option.some.inj h
  split_ifs at h with hup
  split at h
  · split at h
    · cases h
    · next p hp =>
        cases h
        exact ⟨rfl, .inl ⟨p, rfl, hp⟩⟩
  · split at h
    · cases h
    · split_ifs at h with hwrong hverify
      cases h
      exact ⟨rfl, .inr ⟨_, rfl, rfl, hverify⟩⟩
  · cases h

/-- How a sign-in ends. -/
theorem next_done (h : next verify db response stage others up = some (.done db' reply)) :
    (db' = db ∧ reply ≠ .signedIn) ∨ ∃ p, stage = .verified p ∧ reply = .signedIn ∧
      db' = recordPasskeyUse db p.credentialId response.counter := by
  unfold next at h
  replace h := Option.some.inj h
  split_ifs at h with hup
  · cases h
    exact .inl ⟨rfl, by simp⟩
  · split at h
    · split at h
      · cases h
        exact .inl ⟨rfl, by simp⟩
      · cases h
    · split at h
      · cases h
        exact .inl ⟨rfl, by simp⟩
      · split_ifs at h
        · cases h
          exact .inl ⟨rfl, by simp⟩
        · cases h
          exact .inl ⟨rfl, by simp⟩
    · cases h
      exact .inr ⟨_, rfl, rfl, rfl⟩

end

/-! ### Counters -/

/-- The stored counter of a passkey. -/
def counterOf (db : DB) (id : String) : Option ℕ := (findPasskey db id).map Passkey.counter

/-- The counters after one was recorded. -/
theorem counterOf_record (db : DB) (id id' : String) (counter : ℕ) :
    counterOf (recordPasskeyUse db id counter) id' =
      if id' = id then (counterOf db id').map fun _ => counter else counterOf db id' := by
  unfold counterOf findPasskey recordPasskeyUse
  dsimp only
  rw [Table.row_set (by intro p; rfl), Option.map_map]
  cases h : Table.row Passkey.credentialId id' db.passkeys with
  | none => simp
  | some p =>
    have hkey : p.credentialId = id' := Table.row_key h
    by_cases hid : id' = id
    · simp [hkey, hid]
    · simp [hkey, hid]

/-- No counter is lower than before. -/
def Rises (db db' : DB) : Prop := ∀ id, ∀ n ∈ counterOf db id, ∃ n' ∈ counterOf db' id, n ≤ n'

theorem Rises.refl (db : DB) : Rises db db := fun _ n hn => ⟨n, hn, le_rfl⟩

variable {s s' : State DB Response Stage Reply}

theorem Rises.trans (h : Rises db db') (h' : Rises db' db'') : Rises db db'' := by
  intro id n hn
  obtain ⟨n', hn', hle⟩ := h id n hn
  obtain ⟨n'', hn'', hle'⟩ := h' id n' hn'
  exact ⟨n'', hn'', hle.trans hle'⟩

/-- A counter that is no smaller may be recorded. -/
theorem Rises.record {id : String} (h : ∀ n ∈ counterOf db id, n ≤ counter) :
    Rises db (recordPasskeyUse db id counter) := by
  intro id' n hn
  rw [counterOf_record]
  split_ifs with hid
  · subst hid
    exact ⟨counter, by rw [hn]; rfl, h n hn⟩
  · exact ⟨n, hn, le_rfl⟩

/-- The counters that have been used: none is above the stored one, and none is used twice. -/
structure Used (db : DB) (log : List (Response × Reply)) : Prop where
  le : ∀ response, (response, .signedIn) ∈ log → ∃ n ∈ counterOf db response.id,
    response.counter ≤ n
  once : log.Pairwise fun x y => x.2 = .signedIn → y.2 = .signedIn → x.1.id = y.1.id →
    x.1.counter = y.1.counter → x.1.counter = 0

/-- What a sign-in has read and verified. -/
def Read (response : Response) : Stage → Prop
  | .begun => True
  | .found p => p.credentialId = response.id
  | .verified p => p.credentialId = response.id ∧
      (p.counter < response.counter ∨ (p.counter = 0 ∧ response.counter = 0))

/-- The counters are as `db` had them or higher, and the replies are good. -/
def Sound (db : DB) : State DB Response Stage Reply → Prop :=
  State.Good (fun db' log => Rises db db' ∧ Used db' log) (fun _ => Read) (fun _ _ => True)

/-- When a sign-in records its counter, the stored one is still the one that it read. -/
def undisturbed (s : State DB Response Stage Reply) : Label Response Bool Empty → Bool
  | .go i _ =>
    match s.threads[i]? with
    | some (response, .verified p) => counterOf s.db response.id = some p.counter
    | _ => true
  | _ => true

/-- What a verified sign-in read is still stored. -/
theorem undisturbed_go (h : undisturbed s (.go i up) = true)
    (hx : s.threads[i]? = some (response, .verified p)) :
    counterOf s.db response.id = some p.counter := by
  simpa [undisturbed, hx] using h

instance symm_true : Std.Symm (fun _ _ : Response × Stage => True) := ⟨fun _ _ _ => trivial⟩

/-- **One record**: it is above all that were used. -/
theorem Used.record {log : List (Response × Reply)} (h : Used db log)
    (hstored : counterOf db response.id = some stored)
    (hcount : stored < response.counter ∨ (stored = 0 ∧ response.counter = 0)) :
    Rises db (recordPasskeyUse db response.id response.counter) ∧
      Used (recordPasskeyUse db response.id response.counter) ((response, .signedIn) :: log) := by
  have hrises : Rises db (recordPasskeyUse db response.id response.counter) := by
    refine .record fun n hn => ?_
    rw [hstored] at hn
    cases hn
    omega
  refine ⟨hrises, fun other hother => ?_, List.pairwise_cons.mpr
    ⟨fun y hy _ hy' hid hcounter => ?_, h.once⟩⟩
  · rcases List.mem_cons.mp hother with heq | hother
    · obtain rfl : other = response := congrArg Prod.fst heq
      exact ⟨other.counter, by rw [counterOf_record, if_pos rfl, hstored]; rfl, le_rfl⟩
    · obtain ⟨n, hn, hle⟩ := h.le other hother
      obtain ⟨n', hn', hle'⟩ := hrises other.id n hn
      exact ⟨n', hn', hle.trans hle'⟩
  · -- The other one is not above the stored counter, and this one is.
    obtain ⟨other, reply⟩ := y
    obtain rfl : reply = .signedIn := hy'
    obtain ⟨n, hn, hle⟩ := h.le other hy
    rw [← show response.id = other.id from hid, hstored] at hn
    cases hn
    dsimp only at hcounter ⊢
    omega

/-- **Any run** in which nobody disturbs keeps it. -/
theorem Sound.runs (hverify : CountsUp verify)
    (h : Runs (signIns verify).step (fun s l => undisturbed s l = true) s ls s') (hs : Sound db s) :
    Sound db s' := by
  refine System.inv ?_ ?_ ?_ ?_ h hs
  · exact fun s c _ _ => ⟨trivial, fun _ _ => trivial⟩
  · intro s i response stage up db' stage' hs _ hx hnext
    obtain ⟨hread, hothers, -⟩ := hs.split hx
    have hnext : next verify s.db response stage (s.threads.eraseIdx i) up = _ := hnext
    obtain ⟨rfl, hstage⟩ := next_more hnext
    refine ⟨hs.data, ?_, fun y hy => ⟨(hothers y hy).1, trivial⟩⟩
    rcases hstage with ⟨p, rfl, hp⟩ | ⟨p, rfl, rfl, hp⟩
    · exact Table.row_key hp
    · exact ⟨hread, hverify p response hp⟩
  · intro s i response stage up db' reply hs hok hx hnext
    obtain ⟨hread, hothers, -⟩ := hs.split hx
    obtain ⟨hrises, hused⟩ := hs.data
    have hnext : next verify s.db response stage (s.threads.eraseIdx i) up = _ := hnext
    refine ⟨?_, fun y hy => (hothers y hy).1⟩
    rcases next_done hnext with ⟨rfl, hreply⟩ | ⟨p, rfl, rfl, rfl⟩
    · refine ⟨hrises, fun other hother => ?_, List.pairwise_cons.mpr
        ⟨fun _ _ h => (hreply h).elim, hused.once⟩⟩
      rcases List.mem_cons.mp hother with heq | hother
      · exact (hreply (congrArg Prod.snd heq).symm).elim
      · exact hused.le other hother
    · obtain ⟨hid, hcount⟩ := hread
      rw [hid]
      obtain ⟨hup, hnew⟩ := hused.record (undisturbed_go hok hx) hcount
      exact ⟨hrises.trans hup, hnew⟩
  · exact fun s e => e.elim

theorem sound_init (db : DB) : Sound db (.init db) where
  data := ⟨.refl db, by rintro r ⟨⟩, .nil⟩
  thread := by rintro x ⟨⟩
  apart := .nil

/-- **Counters detect clones**, as long as no other sign-in records between the read and the write
of one: in every run the stored counters rise, and no two sign-ins have the same counter, unless it
is zero. -/
theorem counters_safe (hverify : CountsUp verify) {ls ls' : List (Label Response Bool Empty)}
    (h : Runs (signIns verify).step (fun s l => undisturbed s l = true) (.init db) ls s)
    (h' : Runs (signIns verify).step (fun s l => undisturbed s l = true) s ls' s') :
    Rises s.db s'.db ∧ s'.log.Pairwise fun x y => x.2 = .signedIn → y.2 = .signedIn →
      x.1.id = y.1.id → x.1.counter = y.1.counter → x.1.counter = 0 := by
  have hs := Sound.runs hverify h (sound_init db)
  have hbase : Sound s.db s := ⟨⟨.refl s.db, hs.data.2⟩, hs.thread, hs.apart⟩
  have hs' := Sound.runs hverify h' hbase
  exact ⟨hs'.data.1, hs'.data.2.once⟩

/-- What the documentation of the library promises, and nothing else. -/
def verifyCounter (passkey : Passkey) (response : Response) : Bool :=
  passkey.counter < response.counter || (passkey.counter = 0 && response.counter = 0)

/-- A passkey that has been used four times. -/
def fourth : DB := ⟨[⟨"key", 1, 4⟩], [⟨1, "user"⟩]⟩

def response (counter : ℕ) : Response := ⟨"key", some "user", counter⟩

/-- A sign-in by itself. -/
def alone (counter : ℕ) : List (Label Response Bool Empty) :=
  [.call (response counter), .go 0 true, .go 0 true, .go 0 true]

/-- The counter check of the library. -/
theorem verifyCounter_countsUp : CountsUp verifyCounter := by
  intro passkey response h
  simpa [verifyCounter] using h

/-- One after the other: the counter rises from 4 to 6. -/
theorem counters_safe_alone :
    ∃ s, Runs (signIns verifyCounter).step (fun s l => undisturbed s l = true) (.init fourth)
        (alone 5 ++ alone 6) s ∧
      counterOf fourth "key" = some 4 ∧ counterOf s.db "key" = some 6 ∧ Rises fourth s.db ∧
      s.log = [(response 6, .signedIn), (response 5, .signedIn)] := by
  have hrun : (run (signIns verifyCounter).step undisturbed (.init fourth) (alone 5 ++ alone 6)).any
      (fun s => decide (counterOf s.db "key" = some 6 ∧
        s.log = [(response 6, .signedIn), (response 5, .signedIn)])) = true := by decide +kernel
  obtain ⟨s, hs, hcounter, hlog⟩ := exists_of_run hrun
  exact ⟨s, hs, by decide, hcounter, (counters_safe verifyCounter_countsUp (.nil _) hs).1, hlog⟩

/-- Two at once: both read the counter before either writes it. -/
def overlapping (first second : ℕ) : List (Label Response Bool Empty) :=
  [.call (response first), .call (response second), .go 0 true, .go 1 true, .go 0 true, .go 1 true,
    .go 0 true, .go 0 true]

/-- The counter falls from 6 to 5; and two sign-ins have the counter 5. -/
theorem clones_undetected :
    (∃ s, Runs (signIns verifyCounter).step (fun _ _ => true = true) (.init fourth)
      (overlapping 5 6) s ∧
      s.log = [(response 5, .signedIn), (response 6, .signedIn)] ∧ counterOf s.db "key" = some 5) ∧
    ∃ s, Runs (signIns verifyCounter).step (fun _ _ => true = true) (.init fourth)
    (overlapping 5 5) s ∧
      s.log = [(response 5, .signedIn), (response 5, .signedIn)] :=
  ⟨exists_of_run (by decide +kernel), exists_of_run (by decide +kernel)⟩

end Jarvis.Dashboard
