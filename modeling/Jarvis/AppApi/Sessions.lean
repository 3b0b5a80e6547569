import Jarvis.AppApi.Store

/-!
# What the sessions remember of their tokens

The calls that took effect say which tokens a session was ever given (`issued`) and which of them
were exchanged (`rotations`). A row of the table remembers two tokens of that history: the last one
given, and the last one exchanged with the time of its exchange (`Inv`). A token that was exchanged
is nobody's current token any more (`Inv.spent`), so no token is exchanged twice (`Inv.once`).
-/

namespace Jarvis.AppApi

open Table Transact

/-! ### The history of tokens -/

/-- The session a call gave a new token, and the token. -/
def issue (e : Commit) : Option (UUID × Hash) :=
  match e.op, e.reply with
  | .redeemPairingCode _ n, .paired s => some (s.id, n.refreshHash)
  | .refresh _ next _ _, .refreshed s .rotated => some (s.id, next)
  | .refresh _ next _ _, .refreshed s .retried => some (s.id, next)
  | _, _ => none

/-- The session whose current token a call exchanged (outcome `Rotated`), the token, and when. -/
def rotation (e : Commit) : Option (UUID × Hash × Time) :=
  match e.op, e.reply with
  | .refresh presented _ _ _, .refreshed s .rotated => some (s.id, presented, e.now)
  | _, _ => none

/-- The code a call used up, and the session it made. -/
def pairing (e : Commit) : Option (Hash × UUID) :=
  match e.op, e.reply with
  | .redeemPairingCode code _, .paired s => some (code, s.id)
  | _, _ => none

/-- The code a call stored, the tenant and the user it is for, and its expiry. -/
def creation (e : Commit) : Option (Hash × UUID × String × Time) :=
  match e.op, e.reply with
  | .createPairingCode code tenant user expires, .done => some (code, tenant, user, expires)
  | _, _ => none

/-- The tokens given to sessions, the last one first. -/
def issued (cs : List Commit) : List (UUID × Hash) := cs.filterMap issue

/-- The tokens exchanged, the last one first. -/
def rotations (cs : List Commit) : List (UUID × Hash × Time) := cs.filterMap rotation

/-- The codes used up, with the sessions made. -/
def pairings (cs : List Commit) : List (Hash × UUID) := cs.filterMap pairing

/-- The codes stored. -/
def creations (cs : List Commit) : List (Hash × UUID × String × Time) := cs.filterMap creation

/-- The last token a session was given. -/
def current (sid : UUID) (cs : List Commit) : Option Hash :=
  ((issued cs).find? fun i => i.1 = sid).map (·.2)

/-- The last token of a session that was exchanged, and when. -/
def previous (sid : UUID) (cs : List Commit) : Option (Hash × Time) :=
  ((rotations cs).find? fun r => r.1 = sid).map (·.2)

/-- The names drawn by calls. -/
def names (cs : List Commit) : List Name := draws drawn (cs.map (·.toTxn))

variable {cs : List Commit} {e : Commit} {sid : UUID} {i : UUID × Hash}

section

variable {h : Hash}

theorem names_cons : names (e :: cs) = drawn e.op ++ names cs := rfl

theorem issued_cons_none (he : issue e = none) : issued (e :: cs) = issued cs := by
  simp [issued, he]

variable {r : UUID × Hash × Time} {k : Hash × UUID × String × Time}

theorem issued_cons_some (he : issue e = some i) :
    issued (e :: cs) = i :: issued cs := by
  simp [issued, he]

theorem rotations_cons_none (he : rotation e = none) : rotations (e :: cs) = rotations cs := by
  simp [rotations, he]

theorem rotations_cons_some (he : rotation e = some r) :
    rotations (e :: cs) = r :: rotations cs := by
  simp [rotations, he]

/-- The current token is one the session was given. -/
theorem mem_issued_of_current (hc : current sid cs = some h) : (sid, h) ∈ issued cs := by
  obtain ⟨i, hi, rfl⟩ := Option.map_eq_some_iff.mp hc
  have hid : i.1 = sid := by simpa using List.find?_some hi
  rw [← hid]
  exact List.mem_of_find?_eq_some hi

/-- The last token exchanged is one that was exchanged. -/
theorem mem_rotations_of_previous {r : Hash × Time} (hp : previous sid cs = some r) :
    (sid, r) ∈ rotations cs := by
  obtain ⟨i, hi, rfl⟩ := Option.map_eq_some_iff.mp hp
  have hid : i.1 = sid := by simpa using List.find?_some hi
  rw [← hid]
  exact List.mem_of_find?_eq_some hi

theorem current_cons_some (he : issue e = some i) :
    current sid (e :: cs) = if i.1 = sid then some i.2 else current sid cs := by
  by_cases hi : i.1 = sid <;> simp [current, issued_cons_some he, hi]

theorem previous_cons_some (he : rotation e = some r) :
    previous sid (e :: cs) = if r.1 = sid then some r.2 else previous sid cs := by
  by_cases hi : r.1 = sid <;> simp [previous, rotations_cons_some he, hi]

theorem current_cons_none (he : issue e = none) : current sid (e :: cs) = current sid cs := by
  rw [current, issued_cons_none he, current]

theorem previous_cons_none (he : rotation e = none) : previous sid (e :: cs) = previous sid cs := by
  rw [previous, rotations_cons_none he, previous]

/-- A token that was given was drawn by the call that gave it. -/
theorem token_mem_drawn (he : issue e = some i) :
    Name.token i.2 ∈ drawn e.op := by
  unfold issue at he
  split at he <;> cases he <;> simp_all [drawn]

theorem token_mem_names (hi : i ∈ issued cs) : Name.token i.2 ∈ names cs := by
  obtain ⟨e, he, hie⟩ := List.mem_filterMap.mp hi
  exact List.mem_flatMap.mpr ⟨e.toTxn, List.mem_map_of_mem he, token_mem_drawn hie⟩

theorem code_mem_drawn (he : creation e = some k) :
    Name.code k.1 ∈ drawn e.op := by
  unfold creation at he
  split at he <;> cases he
  simp_all [drawn]

theorem code_mem_names (hk : k ∈ creations cs) :
    Name.code k.1 ∈ names cs := by
  obtain ⟨e, he, hke⟩ := List.mem_filterMap.mp hk
  exact List.mem_flatMap.mpr ⟨e.toTxn, List.mem_map_of_mem he, code_mem_drawn hke⟩

end

/-! ### What the calls do -/

variable {next : Hash} {now : Time} {n : NewSession} {db db' : DB}

section

variable {idleTTL grace : Time} {presented code : Hash}

/-- What a refresh does to the row it finds. -/
inductive Refreshed (now : Time) (presented next : Hash) (idleTTL grace : Time) (db : DB) :
    Reply × DB → Prop
  | refused (r : Reply) (hr : r = .notFound ∨ r = .failed) :
      Refreshed now presented next idleTTL grace db (r, db)
  | rotated (s : SessionRow) (hs : s ∈ db.sessions) (hl : s.live now = true)
      (hp : s.refreshHash = presented)
      (hu : Unique (db.setSession s.id (·.rotate now next idleTTL)).sessions) :
      Refreshed now presented next idleTTL grace db
        (.refreshed (scanSession (s.rotate now next idleTTL)) .rotated,
          db.setSession s.id (·.rotate now next idleTTL))
  | retried (s : SessionRow) (hs : s ∈ db.sessions) (hl : s.live now = true)
      (hp : s.previousHash = some presented) (hg : s.inGrace now grace = true)
      (hu : Unique (db.setSession s.id (·.retry now next)).sessions) :
      Refreshed now presented next idleTTL grace db
        (.refreshed (scanSession (s.retry now next)) .retried,
          db.setSession s.id (·.retry now next))
  | reused (s : SessionRow) (hs : s ∈ db.sessions) (hl : s.live now = true)
      (hp : s.previousHash = some presented) (hg : s.inGrace now grace = false)
      (hu : Unique (db.setSession s.id (·.revoke now reasonReused)).sessions) :
      Refreshed now presented next idleTTL grace db
        (.refreshed (scanSession (s.revoke now reasonReused)) .reused,
          db.setSession s.id (·.revoke now reasonReused))

theorem update_cases (s : SessionRow) (f : SessionRow → SessionRow) (o : RefreshOutcome) :
    update s f o db = (.failed, db) ∨ (Unique (db.setSession s.id f).sessions ∧
      update s f o db = (.refreshed (scanSession (f s)) o, db.setSession s.id f)) := by
  unfold update
  split
  · rename_i hu
    exact .inr ⟨hu, rfl⟩
  · exact .inl rfl

theorem refresh_spec :
    Refreshed now presented next idleTTL grace db
      (refresh now presented next idleTTL grace db) := by
  unfold refresh
  split
  · exact .refused _ (.inl rfl)
  · rename_i s hf
    have hs := List.mem_of_find?_eq_some hf
    have hk := List.find?_some hf
    simp only [SessionRow.knows, Bool.and_eq_true, Bool.or_eq_true, decide_eq_true_eq] at hk
    split_ifs with hp hg
    · rcases update_cases s (·.rotate now next idleTTL) .rotated with h | ⟨hu, h⟩
      · rw [h]
        exact .refused _ (.inr rfl)
      · rw [h]
        exact .rotated s hs hk.2 hp hu
    · rcases update_cases s (·.retry now next) .retried with h | ⟨hu, h⟩
      · rw [h]
        exact .refused _ (.inr rfl)
      · rw [h]
        exact .retried s hs hk.2 (hk.1.resolve_left hp) hg hu
    · rcases update_cases s (·.revoke now reasonReused) .reused with h | ⟨hu, h⟩
      · rw [h]
        exact .refused _ (.inr rfl)
      · rw [h]
        exact .reused s hs hk.2 (hk.1.resolve_left hp) (by simpa using hg) hu

/-- What redeeming a code does. -/
inductive Redeemed (now : Time) (code : Hash) (n : NewSession) (db : DB) : Reply × DB → Prop
  | refused (r : Reply) (hr : r = .notFound ∨ r = .failed) : Redeemed now code n db (r, db)
  | paired (p : PairingCode) (hp : p ∈ db.codes) (hc : p.codeHash = code)
      (hr : p.redeemable now = true)
      (hu : Unique (Table.insert (n.row now p.tenantID p.userID) db.sessions)) :
      Redeemed now code n db
        (.paired (scanSession (n.row now p.tenantID p.userID)),
          { codes := set (fun p => decide (p.codeHash = code) && p.redeemable now)
              (fun p => { p with redeemedAt := some now, sessionID := some n.id }) db.codes
            sessions := Table.insert (n.row now p.tenantID p.userID) db.sessions })

theorem redeem_spec : Redeemed now code n db (redeemPairingCode now code n db) := by
  unfold redeemPairingCode
  dsimp only
  split
  · exact .refused _ (.inl rfl)
  · rename_i p hf
    have hp := List.mem_of_find?_eq_some hf
    have hk := List.find?_some hf
    simp only [Bool.and_eq_true, decide_eq_true_eq] at hk
    split_ifs with hu
    · exact .paired p hp hk.1 hk.2 hu
    · exact .refused _ (.inr rfl)

variable {reply : Reply}

theorem refresh_of_exec (h : exec (.refresh presented next idleTTL grace) now db = (reply, db')) :
    Refreshed now presented next idleTTL grace db (reply, db') := by
  rw [← h]
  exact refresh_spec

theorem redeem_of_exec (h : exec (.redeemPairingCode code n) now db = (reply, db')) :
    Redeemed now code n db (reply, db') := by
  rw [← h]
  exact redeem_spec

end

/-! ### The invariant of the sessions -/

/-- The rows hold what the history says: the last token given, and the last one exchanged. -/
structure Inv (db : DB) (cs : List Commit) : Prop where
  unique : Unique db.sessions
  owned : ∀ i ∈ issued cs, Name.session i.1 ∈ names cs
  current : ∀ s ∈ db.sessions, AppApi.current s.id cs = some s.refreshHash
  previousHash : ∀ s ∈ db.sessions, s.previousHash = (previous s.id cs).map (·.1)
  rotatedAt : ∀ s ∈ db.sessions, s.rotatedAt = (previous s.id cs).map (·.2)
  /-- A token that was exchanged is nobody's current token. -/
  spent : ∀ s ∈ db.sessions, s.refreshHash ∉ (rotations cs).map (·.2.1)
  given : ∀ r ∈ rotations cs, (r.1, r.2.1) ∈ issued cs
  once : ((rotations cs).map (·.2.1)).Nodup

/-- Two rows remember the same tokens. -/
def SameTokens (s' s : SessionRow) : Prop :=
  s'.id = s.id ∧ s'.refreshHash = s.refreshHash ∧ s'.previousHash = s.previousHash ∧
    s'.rotatedAt = s.rotatedAt

section

theorem Inv.init : Inv ⟨[], []⟩ [] := by
  constructor <;> simp [Unique, Keyed, rotations, issued]

/-- What the history says of a row, beside its current token. -/
def Told (cs : List Commit) (s : SessionRow) : Prop :=
  s.previousHash = (previous s.id cs).map (·.1) ∧ s.rotatedAt = (previous s.id cs).map (·.2) ∧
    s.refreshHash ∉ (rotations cs).map (·.2.1)

variable {s : SessionRow} {f : SessionRow → SessionRow} {rows : List SessionRow}
  {p : SessionRow → Bool}

theorem Inv.told (h : Inv db cs) (hs : s ∈ db.sessions) : Told cs s :=
  ⟨h.previousHash s hs, h.rotatedAt s hs, h.spent s hs⟩

/-- A call that exchanges no current token. -/
theorem Inv.unrotated (h : Inv db cs) (hr : rotation e = none) (hu : Unique db'.sessions)
    (howned : ∀ i ∈ issued (e :: cs), Name.session i.1 ∈ names (e :: cs))
    (hrows : ∀ s ∈ db'.sessions, AppApi.current s.id (e :: cs) = some s.refreshHash ∧ Told cs s) :
    Inv db' (e :: cs) := by
  have htold : ∀ s ∈ db'.sessions, Told (e :: cs) s := fun s hs => by
    rw [Told, previous_cons_none hr, rotations_cons_none hr]
    exact (hrows s hs).2
  refine ⟨hu, howned, fun s hs => (hrows s hs).1, fun s hs => (htold s hs).1,
    fun s hs => (htold s hs).2.1, fun s hs => (htold s hs).2.2, ?_, ?_⟩
  · rw [rotations_cons_none hr]
    exact fun r hmem => ((List.sublist_cons_self e cs).filterMap issue).subset (h.given r hmem)
  · rw [rotations_cons_none hr]
    exact h.once

/-- A call that gives no token and keeps the tokens of the rows. -/
theorem Inv.keep (h : Inv db cs) (hi : issue e = none) (hr : rotation e = none)
    (hu : Unique db'.sessions)
    (hrows : ∀ s' ∈ db'.sessions, ∃ s ∈ db.sessions, SameTokens s' s) : Inv db' (e :: cs) := by
  refine h.unrotated hr hu (fun i hmem => ?_) fun s' hs' => ?_
  · rw [issued_cons_none hi] at hmem
    exact List.mem_append_right _ (h.owned i hmem)
  · obtain ⟨s, hs, hid, hh, hp, ht⟩ := hrows s' hs'
    rw [Told, hid, hh, hp, ht, current_cons_none hi]
    exact ⟨h.current s hs, h.told hs⟩

/-- The rows after an update of one session: its new row, and the other rows. -/
theorem mem_setSession (hk : Keyed (·.id) db.sessions) (hs : s ∈ db.sessions)
    (h : s' ∈ (db.setSession s.id f).sessions) :
    s' = f s ∨ (s' ∈ db.sessions ∧ s'.id ≠ s.id) := by
  obtain ⟨x, hx, rfl⟩ := mem_set.mp h
  by_cases hid : x.id = s.id
  · obtain rfl := hk.eq hx hs hid
    simp
  · simp [hid, hx]

/-- A token nobody drew before. -/
theorem fresh_token (hd : Name.token next ∈ drawn e.op) (hn : (names (e :: cs)).Nodup)
    (hi : i ∈ issued cs) : i.2 ≠ next := by
  rintro rfl
  exact (List.nodup_append.mp hn).2.2 _ hd _ (token_mem_names hi) rfl

/-- A token nobody drew before was never exchanged. -/
theorem Inv.fresh_not_rotated (h : Inv db cs) (hd : Name.token next ∈ drawn e.op)
    (hn : (names (e :: cs)).Nodup) : next ∉ (rotations cs).map (·.2.1) := by
  intro hmem
  obtain ⟨r, hr, hrn⟩ := List.mem_map.mp hmem
  exact fresh_token hd hn (h.given r hr) hrn

/-- The id of a session was drawn. -/
theorem Inv.named (h : Inv db cs) (hs : s ∈ db.sessions) :
    Name.session s.id ∈ names cs :=
  h.owned _ (mem_issued_of_current (h.current s hs))

/-- A session that gets one more token keeps its id. -/
theorem Inv.owned_cons (h : Inv db cs) (hsid : Name.session sid ∈ names cs)
    (hi : issue e = some (sid, next)) (hmem : i ∈ issued (e :: cs)) :
    Name.session i.1 ∈ names (e :: cs) := by
  rw [issued_cons_some hi] at hmem
  rw [names_cons]
  rcases List.mem_cons.mp hmem with rfl | hmem
  · exact List.mem_append_right _ hsid
  · exact List.mem_append_right _ (h.owned i hmem)

/-- The current token of a session rotates. -/
theorem Inv.rotated (h : Inv db cs) (hs : s ∈ db.sessions) (hi : issue e = some (s.id, next))
    (hr : rotation e = some (s.id, s.refreshHash, now)) (hn : (names (e :: cs)).Nodup)
    (hu : Unique (db.setSession s.id (·.rotate now next idleTTL)).sessions) :
    Inv (db.setSession s.id (·.rotate now next idleTTL)) (e :: cs) := by
  have hold := mem_issued_of_current (h.current s hs)
  have hrows : ∀ s' ∈ (db.setSession s.id (·.rotate now next idleTTL)).sessions,
      AppApi.current s'.id (e :: cs) = some s'.refreshHash ∧ Told (e :: cs) s' := by
    intro s' hs'
    rw [Told, current_cons_some hi, previous_cons_some hr, rotations_cons_some hr, List.map_cons,
      List.mem_cons, not_or]
    rcases mem_setSession h.unique.1 hs hs' with rfl | ⟨hs', hne⟩
    · have hid : s.id = (s.rotate now next idleTTL).id := rfl
      have hd := token_mem_drawn hi
      rw [if_pos hid, if_pos hid]
      exact ⟨rfl, rfl, rfl, (fresh_token hd hn hold).symm, h.fresh_not_rotated hd hn⟩
    · rw [if_neg (Ne.symm hne), if_neg (Ne.symm hne)]
      refine ⟨h.current s' hs', h.previousHash s' hs', h.rotatedAt s' hs',
        fun heq => hne ?_, h.spent s' hs'⟩
      rw [h.unique.2.1.eq hs' hs heq]
  refine ⟨hu, fun i hmem => h.owned_cons (h.named hs) hi hmem, fun s' hs' => (hrows s' hs').1,
    fun s' hs' => (hrows s' hs').2.1, fun s' hs' => (hrows s' hs').2.2.1,
    fun s' hs' => (hrows s' hs').2.2.2, fun r hmem => ?_, ?_⟩
  · rw [issued_cons_some hi]
    rw [rotations_cons_some hr] at hmem
    rcases List.mem_cons.mp hmem with rfl | hmem
    · exact List.mem_cons_of_mem _ hold
    · exact List.mem_cons_of_mem _ (h.given r hmem)
  · rw [rotations_cons_some hr, List.map_cons, List.nodup_cons]
    exact ⟨h.spent s hs, h.once⟩

/-- The previous token of a session is exchanged again. -/
theorem Inv.retried (h : Inv db cs) (hs : s ∈ db.sessions) (hi : issue e = some (s.id, next))
    (hr : rotation e = none) (hn : (names (e :: cs)).Nodup)
    (hu : Unique (db.setSession s.id (·.retry now next)).sessions) :
    Inv (db.setSession s.id (·.retry now next)) (e :: cs) := by
  refine h.unrotated hr hu (fun i hmem => h.owned_cons (h.named hs) hi hmem) fun s' hs' => ?_
  rw [current_cons_some hi]
  rcases mem_setSession h.unique.1 hs hs' with rfl | ⟨hs', hne⟩
  · exact ⟨if_pos rfl, h.previousHash s hs, h.rotatedAt s hs,
      h.fresh_not_rotated (token_mem_drawn hi) hn⟩
  · rw [if_neg (Ne.symm hne)]
    exact ⟨h.current s' hs', h.told hs'⟩

/-- A session that was never given a token has exchanged none. -/
theorem Inv.previous_none (h : Inv db cs) (hs : Name.session sid ∉ names cs) :
    previous sid cs = none := by
  rcases hp : previous sid cs with _ | r
  · rfl
  · exact absurd (h.owned _ (h.given _ (mem_rotations_of_previous hp))) hs

/-- A session id nobody drew before. -/
theorem fresh_session (hd : drawn e.op = [.session n.id, .token n.refreshHash])
    (hn : (names (e :: cs)).Nodup) : Name.session n.id ∉ names cs := by
  intro hmem
  refine (List.nodup_append.mp hn).2.2 (.session n.id) ?_ _ hmem rfl
  show Name.session n.id ∈ drawn e.op
  rw [hd]
  exact List.mem_cons_self

/-- A new session. -/
theorem Inv.paired (h : Inv db cs) (hd : drawn e.op = [.session n.id, .token n.refreshHash])
    (hi : issue e = some (n.id, n.refreshHash)) (hr : rotation e = none)
    (hn : (names (e :: cs)).Nodup)
    (hu : Unique (Table.insert (n.row now tenant user) db.sessions)) :
    Inv ⟨codes, Table.insert (n.row now tenant user) db.sessions⟩ (e :: cs) := by
  have hnew := fresh_session hd hn
  refine h.unrotated hr hu (fun i hmem => ?_) fun s' hs' => ?_
  · rw [issued_cons_some hi] at hmem
    rw [names_cons, hd]
    rcases List.mem_cons.mp hmem with rfl | hmem
    · exact List.mem_cons_self
    · exact List.mem_append_right _ (h.owned i hmem)
  · rw [current_cons_some hi]
    rcases mem_insert.mp hs' with hs' | rfl
    · have hne : n.id ≠ s'.id := fun heq => hnew (heq ▸ h.named hs')
      rw [if_neg hne]
      exact ⟨h.current s' hs', h.told hs'⟩
    · rw [Told, show (n.row now tenant user).id = n.id from rfl, h.previous_none hnew]
      exact ⟨if_pos rfl, rfl, rfl, h.fresh_not_rotated (token_mem_drawn hi) hn⟩

/-! ### Every call keeps it -/

/-- The constraints survive an update that keeps the constrained columns. -/
theorem Unique.set (h : Unique rows) (hf : ∀ s, SameTokens (f s) s) : Unique (set p f rows) := by
  refine ⟨h.1.set fun s => (hf s).1, h.2.1.set fun s => (hf s).2.1, ?_⟩
  have hprev : (Table.set p f rows).filterMap (·.previousHash) =
      rows.filterMap (·.previousHash) := by
    simp only [Table.set, List.filterMap_map]
    refine List.filterMap_congr fun s _ => ?_
    by_cases hp : p s <;> simp [hp, (hf s).2.2.1]
  rw [hprev]
  exact h.2.2

theorem Unique.delete (h : Unique rows) :
    Unique (delete p rows) :=
  ⟨h.1.delete, h.2.1.delete, h.2.2.sublist (List.filter_sublist.filterMap _)⟩

theorem sameTokens_revoke (now : Time) (reason : String) (s : SessionRow) :
    SameTokens (s.revoke now reason) s := ⟨rfl, rfl, rfl, rfl⟩

/-- Rows after an update that keeps the tokens. -/
theorem sameTokens_of_mem_set (hf : ∀ s, SameTokens (f s) s) :
    ∀ s' ∈ set p f rows, ∃ s ∈ rows, SameTokens s' s := by
  intro s' hs'
  obtain ⟨s, hs, rfl⟩ := mem_set.mp hs'
  refine ⟨s, hs, ?_⟩
  split
  · exact hf s
  · exact ⟨rfl, rfl, rfl, rfl⟩

/-- A call that leaves the sessions alone. -/
theorem Inv.same (h : Inv db cs) (hi : issue e = none) (hr : rotation e = none)
    (hs : db'.sessions = db.sessions) : Inv db' (e :: cs) :=
  h.keep hi hr (hs ▸ h.unique) fun s' hs' => ⟨s', hs ▸ hs', rfl, rfl, rfl, rfl⟩

/-- A call that revokes sessions. -/
theorem Inv.revoked (h : Inv db cs) (hi : issue e = none) (hr : rotation e = none)
    (hs : db'.sessions = set p (·.revoke now reason) db.sessions) : Inv db' (e :: cs) :=
  h.keep hi hr (hs ▸ h.unique.set fun s => sameTokens_revoke now reason s)
    (hs ▸ sameTokens_of_mem_set fun s => sameTokens_revoke now reason s)

/-- Every call keeps the invariant. -/
theorem exec_inv (h : Inv e.before cs) (he : exec e.op e.now e.before = (e.reply, e.after))
    (hn : (names (e :: cs)).Nodup) : Inv e.after (e :: cs) := by
  obtain ⟨⟨op, now⟩, reply, before, after⟩ := e
  dsimp only at h he
  cases op with
  | createPairingCode code tenant user expires =>
    dsimp only [exec, createPairingCode] at he
    split at he <;> cases he
    · exact h.same rfl rfl rfl
    · exact h.same rfl rfl rfl
  | redeemPairingCode code n =>
    cases redeem_of_exec he with
    | refused r hr => rcases hr with rfl | rfl <;> exact h.same rfl rfl rfl
    | paired p hp hc hr hu => exact h.paired rfl rfl rfl hn hu
  | refresh presented next idleTTL grace =>
    cases refresh_of_exec he with
    | refused r hr => rcases hr with rfl | rfl <;> exact h.same rfl rfl rfl
    | rotated s hs hl hp hu =>
      subst hp
      exact h.rotated hs rfl rfl hn hu
    | retried s hs hl hp hg hu => exact h.retried hs rfl rfl hn hu
    | reused s hs hl hp hg hu => exact h.revoked rfl rfl rfl
  | signOut presented =>
    cases he
    exact h.revoked rfl rfl rfl
  | revoke tenant user id reason =>
    cases he
    exact h.revoked rfl rfl rfl
  | purge keep unseenCodes unseen =>
    cases he
    refine h.keep rfl rfl h.unique.delete fun s' hs' => ⟨s', ?_, rfl, rfl, rfl, rfl⟩
    exact (mem_delete.mp hs').1

/-- The invariant holds after any calls, in any order. -/
theorem history_inv (h : History exec ⟨[], []⟩ db cs) (hn : (names cs).Nodup) : Inv db cs := by
  induction h with
  | nil => exact .init
  | cons t h ih => exact exec_inv (ih (List.nodup_append.mp hn).2.1) rfl hn

end

end Jarvis.AppApi
