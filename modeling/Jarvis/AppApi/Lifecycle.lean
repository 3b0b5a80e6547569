import Jarvis.AppApi.Sessions

/-!
# The life of a session

Times are the times of transactions, as the store sees them: `now()`. A session is expired for a
transaction when its expiry is not after the transaction's time.
-/

namespace Jarvis.AppApi

open Table Transact

/-! ### Pairing codes -/

/-- The codes hold what the history says. -/
structure CodesInv (db : DB) (cs : List Commit) : Prop where
  keyed : Keyed PairingCode.codeHash db.codes
  stored : ∀ p ∈ db.codes, (p.codeHash, p.tenantID, p.userID, p.expiresAt) ∈ creations cs
  unused : ∀ p ∈ db.codes, p.redeemedAt = none → p.codeHash ∉ (pairings cs).map (·.1)
  known : ∀ k ∈ pairings cs, k.1 ∈ (creations cs).map (·.1)
  once : ((pairings cs).map (·.1)).Nodup

section

variable {db db' : DB} {cs : List Commit} {e : Commit}

theorem creations_cons_none (he : creation e = none) : creations (e :: cs) = creations cs := by
  simp [creations, he]

theorem pairings_cons_none (he : pairing e = none) : pairings (e :: cs) = pairings cs := by
  simp [pairings, he]

theorem pairings_cons_some (he : pairing e = some k) :
    pairings (e :: cs) = k :: pairings cs := by
  simp [pairings, he]

theorem CodesInv.init : CodesInv ⟨[], []⟩ [] := by
  constructor <;> simp [Keyed, pairings]

/-- A call that stores no code and uses none up. -/
theorem CodesInv.keep (h : CodesInv db cs) (hc : creation e = none) (hp : pairing e = none)
    (hs : db'.codes.Sublist db.codes) : CodesInv db' (e :: cs) where
  keyed := h.keyed.sublist (hs.map _)
  stored p hmem := by
    rw [creations_cons_none hc]
    exact h.stored p (hs.subset hmem)
  unused p hmem := by
    rw [pairings_cons_none hp]
    exact h.unused p (hs.subset hmem)
  known := by
    rw [pairings_cons_none hp, creations_cons_none hc]
    exact h.known
  once := by
    rw [pairings_cons_none hp]
    exact h.once

variable {code : Hash} {now : Time}

/-- A code nobody drew before was never used up. -/
theorem CodesInv.fresh_not_paired (h : CodesInv db cs) (hd : Name.code code ∈ drawn e.op)
    (hn : (names (e :: cs)).Nodup) :
    code ∉ (pairings cs).map (·.1) := by
  intro hmem
  obtain ⟨k, hk, rfl⟩ := List.mem_map.mp hmem
  obtain ⟨d, hd', hdk⟩ := List.mem_map.mp (h.known k hk)
  have hcode := code_mem_names hd'
  rw [hdk] at hcode
  exact (List.nodup_append.mp hn).2.2 _ hd _ hcode rfl

/-- A code is stored. -/
theorem CodesInv.created (h : CodesInv db cs)
    (hnew : row PairingCode.codeHash code db.codes = none)
    (hc : creation e = some (code, tenant, user, expires)) (hp : pairing e = none)
    (hn : (names (e :: cs)).Nodup) :
    CodesInv { db with
      codes := Table.insert ⟨code, tenant, user, expires, none, none, now⟩ db.codes }
      (e :: cs) where
  keyed := h.keyed.insert hnew
  stored p hmem := by
    rw [creations, List.filterMap_cons_some hc]
    rcases mem_insert.mp hmem with hmem | rfl
    · exact List.mem_cons_of_mem _ (h.stored p hmem)
    · exact List.mem_cons_self
  unused p hmem hr := by
    rw [pairings_cons_none hp]
    rcases mem_insert.mp hmem with hmem | rfl
    · exact h.unused p hmem hr
    · exact h.fresh_not_paired (code_mem_drawn hc) hn
  known k hk := by
    rw [pairings_cons_none hp] at hk
    rw [creations, List.filterMap_cons_some hc]
    exact List.mem_cons_of_mem _ (h.known k hk)
  once := by
    rw [pairings_cons_none hp]
    exact h.once

/-- A code is used up. -/
theorem CodesInv.paired (h : CodesInv db cs) (hp : p ∈ db.codes) (hr : p.redeemable now = true)
    (hk : pairing e = some (p.codeHash, sid)) (hc : creation e = none) :
    CodesInv ⟨set (fun q => decide (q.codeHash = p.codeHash) && q.redeemable now)
      (fun q => { q with redeemedAt := some now, sessionID := some sid }) db.codes, sessions⟩
      (e :: cs) where
  keyed := h.keyed.set fun _ => rfl
  stored q hq := by
    rw [creations_cons_none hc]
    obtain ⟨q₀, hq₀, rfl⟩ := mem_set.mp hq
    split
    · exact h.stored q₀ hq₀
    · exact h.stored q₀ hq₀
  unused q hq hnone := by
    rw [pairings_cons_some hk, List.map_cons, List.mem_cons, not_or]
    obtain ⟨q₀, hq₀, rfl⟩ := mem_set.mp hq
    split at hnone
    · cases hnone
    · rename_i hne
      rw [if_neg hne]
      refine ⟨fun heq => hne ?_, h.unused q₀ hq₀ hnone⟩
      -- the row with this code is the one that was redeemable
      rw [h.keyed.eq hq₀ hp heq]
      simp [hr]
  known k hmem := by
    rw [creations_cons_none hc]
    rw [pairings_cons_some hk] at hmem
    rcases List.mem_cons.mp hmem with rfl | hmem
    · exact List.mem_map_of_mem (h.stored p hp)
    · exact h.known k hmem
  once := by
    rw [pairings_cons_some hk, List.map_cons, List.nodup_cons]
    refine ⟨h.unused p hp ?_, h.once⟩
    simp only [PairingCode.redeemable, Bool.and_eq_true, Option.isNone_iff_eq_none] at hr
    exact hr.1

/-- Every call keeps the invariant of the codes. -/
theorem exec_codes (h : CodesInv e.before cs)
    (he : exec e.op e.now e.before = (e.reply, e.after)) (hn : (names (e :: cs)).Nodup) :
    CodesInv e.after (e :: cs) := by
  obtain ⟨⟨op, now⟩, reply, before, after⟩ := e
  dsimp only at h he
  cases op with
  | createPairingCode code tenant user expires =>
    dsimp only [exec, createPairingCode] at he
    split at he <;> cases he
    · exact h.keep rfl rfl (List.Sublist.refl _)
    · rename_i hnew
      exact h.created hnew rfl rfl hn
  | redeemPairingCode code n =>
    cases redeem_of_exec he with
    | refused r hr => rcases hr with rfl | rfl <;> exact h.keep rfl rfl (List.Sublist.refl _)
    | paired p hp hc hr hu =>
      subst hc
      exact h.paired hp hr rfl rfl
  | refresh presented next idleTTL grace =>
    cases refresh_of_exec he with
    | refused r hr => rcases hr with rfl | rfl <;> exact h.keep rfl rfl (List.Sublist.refl _)
    | rotated | retried | reused => exact h.keep rfl rfl (List.Sublist.refl _)
  | signOut presented =>
    cases he
    exact h.keep rfl rfl (List.Sublist.refl _)
  | revoke tenant user id reason =>
    cases he
    exact h.keep rfl rfl (List.Sublist.refl _)
  | purge keep unseenCodes unseen =>
    cases he
    exact h.keep rfl rfl List.filter_sublist

theorem history_codes (h : History exec ⟨[], []⟩ db cs) (hn : (names cs).Nodup) :
    CodesInv db cs := by
  induction h with
  | nil => exact .init
  | cons t h ih => exact exec_codes (ih (List.nodup_append.mp hn).2.1) rfl hn

end

/-! ### The lifecycle -/

/-- The session that a call reports as ended. -/
def ending (e : Commit) : Option UUID :=
  match e.op, e.reply with
  | .signOut _, .signedOut (some s) => some s.id
  | .revoke _ _ id _, .revoked true => some id
  | .refresh _ _ _ _, .refreshed s .reused => some s.id
  | _, _ => none

/-- What a call may do, given the calls before it. -/
structure Lawful (older : List Commit) (e : Commit) : Prop where
  /-- A code makes a session exactly when it is redeemed unused and unexpired. -/
  pairs : ∀ code n, e.op = .redeemPairingCode code n →
    ((∃ s, e.reply = .paired s) ↔
      ∃ p ∈ e.before.codes, p.codeHash = code ∧ p.redeemedAt = none ∧ e.now < p.expiresAt)
  /-- The session is for the tenant and the user the code was stored for, and the code was unused;
  the session is stored, with the id and the token that were drawn for it, and is not revoked. -/
  paired : ∀ code n s, e.op = .redeemPairingCode code n → e.reply = .paired s →
    code ∉ (pairings older).map (·.1) ∧
      (∃ expires, (code, s.tenantID, s.userID, expires) ∈ creations older ∧ e.now < expires) ∧
      ∃ r ∈ e.after.sessions, scanSession r = s ∧ r.id = n.id ∧ r.refreshHash = n.refreshHash ∧
        r.revokedAt = none
  /-- Only pairing makes sessions. -/
  makes : ∀ s ∈ e.after.sessions, (∀ s₀ ∈ e.before.sessions, s₀.id ≠ s.id) →
    ∃ code, pairing e = some (code, s.id)
  /-- A session that was signed out or revoked, or whose token was found to be used again, has
  ended. -/
  ends : ∀ sid, ending e = some sid → (∃ r ∈ e.after.sessions, r.id = sid) ∧
    ∀ r ∈ e.after.sessions, r.id = sid → r.revokedAt = some e.now
  /-- A refresh gives a token only to a session that is neither revoked nor expired, for its current
  token, or for the one before it within the grace period of that one's exchange; the new token is
  then the current one. -/
  yields : ∀ presented next idleTTL grace sid h, e.op = .refresh presented next idleTTL grace →
    issue e = some (sid, h) →
      (∃ s ∈ e.before.sessions, s.id = sid ∧ s.revokedAt = none ∧ e.now < s.refreshExpiresAt) ∧
      (current sid older = some presented ∨
        ∃ rotatedAt, previous sid older = some (presented, rotatedAt) ∧ e.now - grace < rotatedAt) ∧
      ∃ r ∈ e.after.sessions, r.id = sid ∧ r.refreshHash = next ∧ r.revokedAt = none

/-- The session has ended for every transaction that can still take effect. -/
def Ended (c : Config) (s : SessionRow) : Prop :=
  s.revokedAt ≠ none ∨
    (s.refreshExpiresAt ≤ c.clock ∧ ∀ t ∈ c.opened, s.refreshExpiresAt ≤ t.now)

/-- The lifecycle of sessions, in a configuration that a run has reached. -/
structure Lifecycle (c : Config) : Prop where
  lawful : ∀ newer e older, c.commits = newer ++ e :: older → Lawful older e
  /-- A code makes at most one session. -/
  paired_once : ((pairings c.commits).map (·.1)).Nodup
  /-- The current token of a session is the last one it was given; no other session has it. -/
  one_current : ∀ s ∈ c.db.sessions, current s.id c.commits = some s.refreshHash ∧
    ∀ s' ∈ c.db.sessions, (s'.id = s.id ∨ s'.refreshHash = s.refreshHash) → s' = s
  /-- A token is exchanged at most once. -/
  rotated_once : ((rotations c.commits).map (·.2.1)).Nodup
  /-- A session that has ended gets no token, whatever happens next. -/
  ended : ∀ s ∈ c.db.sessions, Ended c s → ∀ acts c', run exec drawn c acts = some c' →
    ∀ h, (s.id, h) ∈ issued c'.commits → (s.id, h) ∈ issued c.commits

section

variable {db : DB} {cs : List Commit} {e : Commit}

variable {now : Time} {s s' : SessionRow} {p : PairingCode} {rows : List SessionRow}
  {reason : String} {n : NewSession} {code : Hash} {sid : UUID}

theorem live_iff :
    s.live now = true ↔ s.revokedAt = none ∧ now < s.refreshExpiresAt := by
  simp [SessionRow.live]

theorem redeemable_iff :
    p.redeemable now = true ↔ p.redeemedAt = none ∧ now < p.expiresAt := by
  simp [PairingCode.redeemable]

/-- The previous token of a row, and when it was exchanged. -/
theorem Inv.previous_eq (h : Inv db cs) (hs : s ∈ db.sessions) {p : Hash}
    (hp : s.previousHash = some p) :
    ∃ t, previous s.id cs = some (p, t) ∧ s.rotatedAt = some t := by
  have hprev := h.previousHash s hs
  rw [hp] at hprev
  obtain ⟨r, hr, rfl⟩ := Option.map_eq_some_iff.mp hprev.symm
  refine ⟨r.2, hr, ?_⟩
  rw [h.rotatedAt s hs, hr]
  rfl

/-- Rows after an update that revokes. -/
theorem mem_set_revoke {p : SessionRow → Bool} (hs' : s' ∈ set p (·.revoke now reason) rows) :
    ∃ s ∈ rows, s'.id = s.id ∧ (s' = s ∨ s'.revokedAt ≠ none ∨ s.live t = true) := by
  obtain ⟨s, hs, rfl⟩ := mem_set.mp hs'
  refine ⟨s, hs, ?_⟩
  split
  · exact ⟨rfl, .inr (.inl (by simp [SessionRow.revoke]))⟩
  · exact ⟨rfl, .inl rfl⟩

/-- Where the rows after a call come from: the session it made, a row it left or revoked, or a live
session it gave a token. -/
theorem exec_rows (hk : Keyed (·.id) e.before.sessions)
    (he : exec e.op e.now e.before = (e.reply, e.after)) (hs' : s' ∈ e.after.sessions) :
    (∃ code, pairing e = some (code, s'.id)) ∨
      ∃ s ∈ e.before.sessions, s'.id = s.id ∧
        (s' = s ∨ s'.revokedAt ≠ none ∨ s.live e.now = true) := by
  obtain ⟨⟨op, now⟩, reply, before, after⟩ := e
  dsimp only at hk he hs' ⊢
  cases op with
  | createPairingCode code tenant user expires =>
    dsimp only [exec, createPairingCode] at he
    split at he <;> cases he <;> exact .inr ⟨s', hs', rfl, .inl rfl⟩
  | redeemPairingCode code n =>
    cases redeem_of_exec he with
    | refused r hr => exact .inr ⟨s', hs', rfl, .inl rfl⟩
    | paired p hp hc hr hu =>
      rcases mem_insert.mp hs' with hs' | rfl
      · exact .inr ⟨s', hs', rfl, .inl rfl⟩
      · exact .inl ⟨code, rfl⟩
  | refresh presented next idleTTL grace =>
    cases refresh_of_exec he with
    | refused r hr => exact .inr ⟨s', hs', rfl, .inl rfl⟩
    | rotated s hs hl hp hu =>
      rcases mem_setSession hk hs hs' with rfl | ⟨hs', -⟩
      · exact .inr ⟨s, hs, rfl, .inr (.inr hl)⟩
      · exact .inr ⟨s', hs', rfl, .inl rfl⟩
    | retried s hs hl hp hg hu =>
      rcases mem_setSession hk hs hs' with rfl | ⟨hs', -⟩
      · exact .inr ⟨s, hs, rfl, .inr (.inr hl)⟩
      · exact .inr ⟨s', hs', rfl, .inl rfl⟩
    | reused s hs hl hp hg hu => exact .inr (mem_set_revoke hs')
  | signOut presented =>
    cases he
    exact .inr (mem_set_revoke hs')
  | revoke tenant user id reason =>
    cases he
    exact .inr (mem_set_revoke hs')
  | purge keep unseenCodes unseen =>
    cases he
    exact .inr ⟨s', (mem_delete.mp hs').1, rfl, .inl rfl⟩

/-- A session with names nobody drew before breaks no constraint. -/
theorem Inv.unique_insert (h : Inv db cs) (hid : Name.session n.id ∉ names cs)
    (htok : Name.token n.refreshHash ∉ names cs) :
    Unique (Table.insert (n.row now tenant user) db.sessions) := by
  refine ⟨h.unique.1.insert (row_eq_none.mpr fun s hs heq => hid ?_),
    h.unique.2.1.insert (row_eq_none.mpr fun s hs heq => htok ?_), ?_⟩
  · have := h.named hs
    rwa [heq] at this
  · have := token_mem_names (mem_issued_of_current (h.current s hs))
    rwa [heq] at this
  · simpa [Table.insert, NewSession.row] using h.unique.2.2

/-- A redeem of a code that can be redeemed makes a session. -/
theorem redeem_paired (h : Inv db cs) (hid : Name.session n.id ∉ names cs)
    (htok : Name.token n.refreshHash ∉ names cs) (hp : p ∈ db.codes) (hc : p.codeHash = code)
    (hr : p.redeemable now = true) : ∃ s, (redeemPairingCode now code n db).1 = .paired s := by
  unfold redeemPairingCode
  dsimp only
  split
  · rename_i hf
    have := List.find?_eq_none.mp hf p hp
    simp [hc, hr] at this
  · rw [if_pos (h.unique_insert hid htok)]
    exact ⟨_, rfl⟩

/-- A session that an update has revoked. -/
theorem ended_of_set (hk : Keyed (·.id) rows) (s : SessionRow) {p : SessionRow → Bool}
    (hs : s ∈ rows) (hp : p s = true) :
    (∃ r ∈ set p (·.revoke now reason) rows, r.id = s.id) ∧
      ∀ r ∈ set p (·.revoke now reason) rows, r.id = s.id → r.revokedAt = some now :=
  ⟨⟨s.revoke now reason, mem_set.mpr ⟨s, hs, if_pos hp⟩, rfl⟩,
    fun r hr hid => by rw [hk.eq_of_mem_set hr (fun _ => rfl) hs hp hid]; rfl⟩

/-- A call that reports a session as ended has revoked it. -/
theorem ends_of_inv (hk : Keyed (·.id) e.before.sessions)
    (he : exec e.op e.now e.before = (e.reply, e.after)) (hend : ending e = some sid) :
    (∃ r ∈ e.after.sessions, r.id = sid) ∧
      ∀ r ∈ e.after.sessions, r.id = sid → r.revokedAt = some e.now := by
  obtain ⟨⟨op, now⟩, reply, before, after⟩ := e
  dsimp only at hk he ⊢
  cases op with
  | refresh presented next idleTTL grace =>
    cases refresh_of_exec he with
    | refused r hr => rcases hr with rfl | rfl <;> cases hend
    | rotated | retried => cases hend
    | reused s hs hl hp hg hu =>
      cases hend
      exact ended_of_set hk s hs (decide_eq_true rfl)
  | signOut presented =>
    cases he
    cases hr : (returning (fun s : SessionRow => s.knows presented && s.revokedAt.isNone)
        (·.revoke now reasonSignedOut) before.sessions).head? with
    | none => simp [ending, hr] at hend
    | some r =>
      simp only [ending, hr, Option.map_some, Option.some.injEq] at hend
      obtain ⟨s, hs, hp, rfl⟩ := mem_returning.mp (List.mem_of_head? hr)
      subst hend
      exact ended_of_set hk s hs hp
  | revoke tenant user id reason =>
    cases he
    cases hone : decide (before.sessions.countP (fun s : SessionRow =>
        s.id = id && s.tenantID = tenant && s.userID = user && s.revokedAt.isNone) = 1) with
    | false => simp [ending, hone] at hend
    | true =>
      simp only [ending, hone, Option.some.injEq] at hend
      subst hend
      obtain ⟨s, hs, hp⟩ := List.countP_pos_iff.mp
        (by rw [of_decide_eq_true hone]; exact Nat.one_pos)
      have hid : s.id = id := by
        simp only [Bool.and_eq_true, decide_eq_true_eq] at hp
        exact hp.1.1.1
      rw [← hid]
      exact ended_of_set hk s hs (hid ▸ hp)
  | createPairingCode | redeemPairingCode | purge => cases hend

/-- Every call is lawful. -/
theorem lawful_of_inv (h : Inv e.before cs) (hcodes : CodesInv e.before cs)
    (he : exec e.op e.now e.before = (e.reply, e.after)) (hn : (names (e :: cs)).Nodup) :
    Lawful cs e where
  pairs := by
    intro code n hop
    have hnew := (List.nodup_append.mp hn).2.2
    rw [hop] at he
    constructor
    · rintro ⟨s, hs⟩
      have hspec := redeem_of_exec he
      rw [hs] at hspec
      generalize e.after = after at hspec
      cases hspec with
      | refused r hr => simp at hr
      | paired p hp hc hr hu => exact ⟨p, hp, hc, redeemable_iff.mp hr⟩
    · rintro ⟨p, hp, hc, hr⟩
      have hdrawn : ∀ x ∈ [Name.session n.id, .token n.refreshHash], x ∉ names cs := by
        intro x hx hmem
        refine hnew x ?_ x hmem rfl
        show x ∈ drawn e.op
        rw [hop]
        exact hx
      obtain ⟨s, hs⟩ := @redeem_paired _ _ _ _ n _ h (hdrawn _ (by simp)) (hdrawn _ (by simp)) hp hc
        (redeemable_iff.mpr hr)
      refine ⟨s, ?_⟩
      rw [← hs, show redeemPairingCode e.now code n e.before = (e.reply, e.after) from he]
  paired := by
    intro code n s hop hs
    obtain ⟨⟨op, now⟩, reply, before, after⟩ := e
    dsimp only at hop hs he hcodes ⊢
    subst hop hs
    cases redeem_of_exec he with
    | refused r hr => simp at hr
    | paired p hp hc hr hu =>
      subst hc
      have hr := redeemable_iff.mp hr
      exact ⟨hcodes.unused p hp hr.1, ⟨p.expiresAt, hcodes.stored p hp, hr.2⟩,
        n.row now p.tenantID p.userID, mem_insert.mpr (.inr rfl), rfl, rfl, rfl, rfl⟩
  makes := by
    intro s hs hnew
    rcases exec_rows h.unique.1 he hs with hp | ⟨s₀, hs₀, hid, -⟩
    · exact hp
    · exact absurd hid.symm (hnew s₀ hs₀)
  ends _ := ends_of_inv h.unique.1 he
  yields := by
    intro presented next idleTTL grace sid tok hop hi
    obtain ⟨⟨op, now⟩, reply, before, after⟩ := e
    dsimp only at hop h he ⊢
    subst hop
    -- The row after the call is the one that was found, changed.
    have hmem {s : SessionRow} (hs : s ∈ before.sessions) (f : SessionRow → SessionRow) :
        f s ∈ (before.setSession s.id f).sessions :=
      mem_set.mpr ⟨s, hs, if_pos (decide_eq_true rfl)⟩
    cases refresh_of_exec he with
    | refused r hr => rcases hr with rfl | rfl <;> cases hi
    | rotated s hs hl hp hu =>
      cases hi
      subst hp
      have hlive := live_iff.mp hl
      exact ⟨⟨s, hs, rfl, hlive⟩, .inl (h.current s hs), _, hmem hs _, rfl, rfl, hlive.1⟩
    | retried s hs hl hp hg hu =>
      cases hi
      have hlive := live_iff.mp hl
      obtain ⟨t, ht, hrot⟩ := h.previous_eq hs hp
      rw [SessionRow.inGrace, hrot] at hg
      exact ⟨⟨s, hs, rfl, hlive⟩, .inr ⟨t, ht, by simpa using hg⟩, _, hmem hs _, rfl, rfl, hlive.1⟩
    | reused s hs hl hp hg hu => cases hi

/-! ### Sessions that have ended -/

/-- The session a call made is one whose id it drew. -/
theorem pairing_drawn (he : exec e.op e.now e.before = (e.reply, e.after))
    (hp : pairing e = some (code, sid)) : Name.session sid ∈ drawn e.op := by
  obtain ⟨⟨op, now⟩, reply, before, after⟩ := e
  dsimp only at he ⊢
  unfold pairing at hp
  split at hp <;> cases hp
  rename_i n s hop hs
  dsimp only at hop hs
  subst hop hs
  cases redeem_of_exec he with
  | refused r hr => simp at hr
  | paired p hp hc hr hu => exact List.mem_cons_self

/-- A call gives a token to the session it makes, or to a live one. -/
theorem issue_live (he : exec e.op e.now e.before = (e.reply, e.after))
    (hi : issue e = some (sid, h)) :
    (∃ code, pairing e = some (code, sid)) ∨
      ∃ s ∈ e.before.sessions, s.id = sid ∧ s.live e.now = true := by
  obtain ⟨⟨op, now⟩, reply, before, after⟩ := e
  dsimp only at he ⊢
  cases op with
  | redeemPairingCode code n =>
    cases redeem_of_exec he with
    | refused r hr => rcases hr with rfl | rfl <;> cases hi
    | paired p hp hc hr hu =>
      cases hi
      exact .inl ⟨code, rfl⟩
  | refresh presented next idleTTL grace =>
    cases refresh_of_exec he with
    | refused r hr => rcases hr with rfl | rfl <;> cases hi
    | rotated s hs hl hp hu =>
      cases hi
      exact .inr ⟨s, hs, rfl, hl⟩
    | retried s hs hl hp hg hu =>
      cases hi
      exact .inr ⟨s, hs, rfl, hl⟩
    | reused s hs hl hp hg hu => cases hi
  | createPairingCode | signOut | revoke | purge => cases hi

/-- Session `sid` was made, and has ended; it was given the tokens `given`. -/
structure Over (sid : UUID) (given : List (UUID × Hash)) (c : Config) : Prop where
  fresh : c.Fresh drawn
  history : History exec ⟨[], []⟩ c.db c.commits
  made : Name.session sid ∈ names c.commits
  ended : ∀ s ∈ c.db.sessions, s.id = sid → Ended c s
  tokens : ∀ i ∈ issued c.commits, i.1 = sid → i ∈ given

theorem Ended.not_live (h : Ended c s) (ht : t ∈ c.opened) :
    ¬ s.live t.now = true := by
  rw [live_iff]
  rintro ⟨hr, hnow⟩
  rcases h with h | ⟨-, h⟩
  · exact h hr
  · exact absurd (h t ht) (not_le.mpr hnow)

/-- A session that is over stays over. -/
theorem Over.step (h : Over sid given c) (hstep : step exec drawn c a = some c') :
    Over sid given c' := by
  have hfresh := step_fresh h.fresh hstep
  have hhist := step_history h.history hstep
  rcases step_cases hstep with ⟨t, ht, rfl⟩ | ⟨op, -, rfl⟩ | ⟨i, t, ht, rfl⟩ | ⟨i, rfl⟩
  · refine ⟨hfresh, hhist, h.made, fun s hs hid => ?_, h.tokens⟩
    rcases h.ended s hs hid with hr | ⟨hc, ho⟩
    · exact .inl hr
    · exact .inr ⟨hc.trans ht, ho⟩
  · refine ⟨hfresh, hhist, h.made, fun s hs hid => ?_, h.tokens⟩
    rcases h.ended s hs hid with hr | ⟨hc, ho⟩
    · exact .inl hr
    · exact .inr ⟨hc, fun u hu => by
        rcases List.mem_cons.mp hu with rfl | hu
        · exact hc
        · exact ho u hu⟩
  · -- a transaction takes effect: it neither makes the session nor finds it live
    have hmem : t ∈ c.opened := List.mem_of_getElem? ht
    have hinv := history_inv h.history h.fresh.commits
    have hnot : ∀ code, pairing (t.commit exec c.db) ≠ some (code, sid) := by
      intro code hp
      obtain ⟨t', ht', hn⟩ := List.mem_flatMap.mp h.made
      obtain ⟨e, he, rfl⟩ := List.mem_map.mp ht'
      exact h.fresh.disjoint hmem he (pairing_drawn rfl hp) hn
    refine ⟨hfresh, hhist, List.mem_append_right _ h.made, fun s' hs' hid => ?_,
      fun i hi hsid => ?_⟩
    · rcases exec_rows (e := t.commit exec c.db) hinv.unique.1 rfl hs' with
        ⟨code, hp⟩ | ⟨s, hs, hid', hrow⟩
      · rw [hid] at hp
        exact absurd hp (hnot code)
      · have hend := h.ended s hs (hid'.symm.trans hid)
        rcases hrow with rfl | hr | hl
        · rcases hend with hr | ⟨hc, ho⟩
          · exact .inl hr
          · exact .inr ⟨hc, fun u hu => ho u (List.mem_of_mem_eraseIdx hu)⟩
        · exact .inl hr
        · exact absurd hl (hend.not_live hmem)
    · rcases List.mem_filterMap.mp hi with ⟨e, he, hie⟩
      rcases List.mem_cons.mp he with rfl | he
      · rcases issue_live rfl hie with ⟨code, hp⟩ | ⟨s, hs, hid, hl⟩
        · rw [hsid] at hp
          exact absurd hp (hnot code)
        · exact absurd hl ((h.ended s hs (hid.trans hsid)).not_live hmem)
      · exact h.tokens i (List.mem_filterMap.mpr ⟨e, he, hie⟩) hsid
  · refine ⟨hfresh, hhist, h.made, fun s hs hid => ?_, h.tokens⟩
    rcases h.ended s hs hid with hr | ⟨hc, ho⟩
    · exact .inl hr
    · exact .inr ⟨hc, fun u hu => ho u (List.mem_of_mem_eraseIdx hu)⟩

end

variable {clock : Time} {acts : List (Act Op)} {c : Config}

/-- The lifecycle of sessions holds in every run: whichever calls are made, and in whatever order
their transactions begin, take effect and abort. -/
theorem session_lifecycle (h : reached clock acts = some c) : Lifecycle c := by
  have hhist := run_history h
  have hfresh := run_fresh h
  have hinv := history_inv hhist hfresh.commits
  refine ⟨fun newer e older hc => ?_, (history_codes hhist hfresh.commits).once,
    fun s hs => ⟨hinv.current s hs, fun s' hs' heq => ?_⟩, hinv.once,
      fun s hs hend acts c' hrun => ?_⟩
  · have hnames := hfresh.commits
    rw [hc] at hhist hnames
    obtain ⟨hold, he⟩ := hhist.split
    have hn : (names (e :: older)).Nodup := by
      rw [List.map_append, draws, List.flatMap_append] at hnames
      exact (List.nodup_append.mp hnames).2.1
    have hn' := (List.nodup_append.mp hn).2.1
    exact lawful_of_inv (history_inv hold hn') (history_codes hold hn') he hn
  · rcases heq with heq | heq
    · exact hinv.unique.1.eq hs' hs heq
    · exact hinv.unique.2.1.eq hs' hs heq
  · have hover : Over s.id (issued c.commits) c :=
      ⟨hfresh, hhist, hinv.named hs, fun s' hs' hid => hinv.unique.1.eq hs' hs hid ▸ hend,
        fun i hi _ => hi⟩
    exact fun tok htok => (run_inv (fun _ _ _ hc h => hc.step h) hrun hover).tokens _ htok rfl

/-- A code is stored at 0 and redeemed at 1; the token `10` it gives rotates to `11` at 2. -/
def pairingRotating : List (Act Op) :=
  [.start (.createPairingCode 5 1 "ada" 100), .commit 0, .tick 1,
    .start (.redeemPairingCode 5 ⟨7, "phone", "model", 10, 1000⟩), .commit 0, .tick 2,
    .start (.refresh 10 11 1000 60), .commit 0]

/-- A session is made, its token rotates, and its user revokes it. -/
theorem session_lifecycle_run : ∃ c,
    reached 0 (pairingRotating ++ [.start (.revoke 1 "ada" 7 "revoked"), .commit 0]) = some c ∧
    c.commits.map pairing = [none, none, some (5, 7), none] ∧
    c.commits.map rotation = [none, some (7, 10, 2), none, none] ∧
    c.commits.map ending = [some 7, none, none, none] ∧ Lifecycle c := by
  obtain ⟨c, hc, hpairing, hrotation, hending⟩ : ∃ c,
      reached 0 (pairingRotating ++ [.start (.revoke 1 "ada" 7 "revoked"), .commit 0]) = some c ∧
      c.commits.map pairing = [none, none, some (5, 7), none] ∧
      c.commits.map rotation = [none, some (7, 10, 2), none, none] ∧
      c.commits.map ending = [some 7, none, none, none] := exists_of_run (by decide +kernel)
  exact ⟨c, hc, hpairing, hrotation, hending, session_lifecycle hc⟩

/-! ### A token that was exchanged long ago -/

section

variable {db : DB} {cs : List Commit}

variable {sid : UUID} {p next : Hash} {t now idleTTL grace : Time} {s : SessionRow}

/-- A row that knows a token that was exchanged is the row of its session, and has it as the
previous token. -/
theorem Inv.knows_rotated (h : Inv db cs) (hr : (sid, p, t) ∈ rotations cs) (hs : s ∈ db.sessions)
    (hk : s.knows p = true) : s.id = sid ∧ previous sid cs = some (p, t) := by
  simp only [SessionRow.knows, Bool.or_eq_true, decide_eq_true_eq] at hk
  rcases hk with hk | hk
  · exact absurd (List.mem_map.mpr ⟨_, hr, hk.symm⟩) (h.spent s hs)
  · obtain ⟨t', hprev, -⟩ := h.previous_eq hs hk
    have hmem := mem_rotations_of_previous hprev
    have heq := List.inj_on_of_nodup_map h.once hmem hr rfl
    cases heq
    exact ⟨rfl, hprev⟩

/-- If no row knows a token, a refresh with it does nothing. -/
theorem refresh_unknown (h : ∀ s ∈ db.sessions, s.knows p = false) :
    refresh now p next idleTTL grace db = (.notFound, db) := by
  have hf : (db.sessions.find? fun s => s.knows p && s.live now) = none :=
    List.find?_eq_none.mpr fun s hs => by simp [h s hs]
  rw [refresh, hf]

/-- A refresh with the previous token of a live session, after the grace period, revokes it. -/
theorem refresh_reused (h : Inv db cs) (hs : s ∈ db.sessions)
    (honly : ∀ s' ∈ db.sessions, s'.knows p = true → s' = s) (hp : s.previousHash = some p)
    (hcur : s.refreshHash ≠ p) (hl : s.live now = true) (hg : s.inGrace now grace = false) :
    refresh now p next idleTTL grace db =
      (.refreshed (scanSession (s.revoke now reasonReused)) .reused,
        db.setSession s.id (·.revoke now reasonReused)) := by
  have hf : (db.sessions.find? fun s => s.knows p && s.live now) = some s := by
    cases hf : db.sessions.find? fun s => s.knows p && s.live now with
    | none =>
      have := List.find?_eq_none.mp hf s hs
      simp [SessionRow.knows, hp, hl] at this
    | some s' =>
      have hk := List.find?_some hf
      simp only [Bool.and_eq_true] at hk
      rw [honly s' (List.mem_of_find?_eq_some hf) hk.1]
  have hu : Unique (db.setSession s.id (·.revoke now reasonReused)).sessions :=
    h.unique.set fun s => sameTokens_revoke now reasonReused s
  rw [refresh, hf]
  dsimp only
  rw [if_neg hcur, if_neg (by simp [hg]), update, if_pos hu]

theorem previous_isSome (hr : r ∈ rotations cs) (hsid : r.1 = sid) :
    (previous sid cs).isSome = true := by
  rw [previous, Option.isSome_map, List.find?_isSome]
  exact ⟨r, hr, by simpa using hsid⟩

theorem previous_eq_none (h : ∀ r ∈ rotations cs, r.1 ≠ sid) :
    previous sid cs = none := by
  rw [previous, Option.map_eq_none_iff, List.find?_eq_none]
  exact fun r hr => by simpa using h r hr

/-- The last exchange of a session, when calls follow an exchange of it. -/
theorem previous_append (he : rotation e = some (sid, p, t)) :
    previous sid (newer ++ e :: older) = (previous sid newer).or (some (p, t)) := by
  simp only [previous, rotations, List.filterMap_append, List.filterMap_cons_some he,
    List.find?_append]
  cases (newer.filterMap rotation).find? fun r => decide (r.1 = sid) <;> simp

end

/-- A token `p` that was exchanged before the grace period is presented to `Refresh` while its
session is neither revoked nor expired. The session is revoked exactly when no other token of it was
exchanged since: the store remembers only the last token exchanged. -/
theorem reuse_ends_session (h : reached clock acts = some c) {newer older : List Commit}
    {e : Commit} (hc : c.commits = newer ++ e :: older) {sid : UUID} {p : Hash} {rotatedAt : Time}
    (he : rotation e = some (sid, p, rotatedAt)) {s : SessionRow} (hs : s ∈ c.db.sessions)
    (hid : s.id = sid) {now grace : Time} (hrevoked : s.revokedAt = none)
    (hexpires : now < s.refreshExpiresAt) (hgrace : rotatedAt < now - grace) (next : Hash)
    (idleTTL : Time) :
    (∃ s' ∈ (refresh now p next idleTTL grace c.db).2.sessions,
      s'.id = sid ∧ s'.revokedAt ≠ none) ↔ ∀ r ∈ rotations newer, r.1 ≠ sid := by
  have hinv := history_inv (run_history h) (run_fresh h).commits
  have hsplit : rotations c.commits = rotations newer ++ (sid, p, rotatedAt) ::
    rotations older := by
    rw [hc, rotations, List.filterMap_append, List.filterMap_cons_some he]
    rfl
  have hmem : (sid, p, rotatedAt) ∈ rotations c.commits := by simp [hsplit]
  have hprev : previous sid c.commits = (previous sid newer).or (some (p, rotatedAt)) := by
    rw [hc]
    exact previous_append he
  constructor
  · -- were another token exchanged since, no row would know `p`
    rintro ⟨s', hs', hid', hr'⟩ r hr hsid
    have hnone : ∀ s ∈ c.db.sessions, s.knows p = false := by
      intro s₀ hs₀
      by_contra hk
      have hlast := (hinv.knows_rotated hmem hs₀ (by simpa using hk)).2
      obtain ⟨q, hq⟩ := Option.isSome_iff_exists.mp (previous_isSome hr hsid)
      rw [hprev, hq] at hlast
      cases hlast
      have hnodup := hinv.once
      rw [hsplit, List.map_append, List.nodup_append] at hnodup
      exact hnodup.2.2 p (List.mem_map_of_mem (mem_rotations_of_previous hq)) p (by simp) rfl
    rw [refresh_unknown hnone] at hs'
    rw [hinv.unique.1.eq hs' hs (hid'.trans hid.symm)] at hr'
    exact hr' hrevoked
  · intro hnew
    have hlast : previous s.id c.commits = some (p, rotatedAt) := by
      rw [hid, hprev, previous_eq_none hnew]
      rfl
    have hph : s.previousHash = some p := by rw [hinv.previousHash s hs, hlast]; rfl
    have hcur : s.refreshHash ≠ p := fun heq =>
      hinv.spent s hs (List.mem_map.mpr ⟨_, hmem, heq.symm⟩)
    have hg : s.inGrace now grace = false := by
      rw [SessionRow.inGrace, hinv.rotatedAt s hs, hlast]
      simpa using hgrace.le
    have honly : ∀ s' ∈ c.db.sessions, s'.knows p = true → s' = s := fun s' hs' hk =>
      hinv.unique.1.eq hs' hs ((hinv.knows_rotated hmem hs' hk).1.trans hid.symm)
    rw [refresh_reused hinv hs honly hph hcur (live_iff.mpr ⟨hrevoked, hexpires⟩) hg]
    refine ⟨s.revoke now reasonReused, mem_set.mpr ⟨s, hs, by simp⟩, hid, ?_⟩
    simp [SessionRow.revoke]

/-- The token that the rotation replaced is presented after its grace period. -/
theorem reuse_ends_session_run : ∃ c, reached 0 pairingRotating = some c ∧
    ∃ s' ∈ (refresh 100 10 99 1000 60 c.db).2.sessions, s'.id = 7 ∧ s'.revokedAt ≠ none := by
  obtain ⟨c, hc, hcs, hrow⟩ : ∃ c, reached 0 pairingRotating = some c ∧
      c.commits.map rotation = [some (7, 10, 2), none, none] ∧
      ∃ s ∈ c.db.sessions, s.id = 7 ∧ s.revokedAt = none ∧ 100 < s.refreshExpiresAt := by
    exact exists_of_run (by decide +kernel)
  obtain ⟨e, older, hcom, he, -⟩ := List.map_eq_cons_iff.mp hcs
  obtain ⟨s, hs, hid, hr, hx⟩ := hrow
  exact ⟨c, hc, (reuse_ends_session hc (hcom.trans (List.nil_append _).symm) he hs hid hr hx
    (by decide) 99 1000).mpr (by simp [rotations])⟩

/-- The token `10` was exchanged for `11`, and `11` for `12`. A minute and a half later `10` is
presented again: the session is live and stays so. -/
theorem reuse_undetected : ∃ c,
    reached 0 (pairingRotating ++ [.tick 3, .start (.refresh 11 12 1000 60), .commit 0]) = some c ∧
    (7, 10, 2) ∈ rotations c.commits ∧ (2 : Time) < 100 - 60 ∧
    (∃ s ∈ c.db.sessions, s.id = 7 ∧ s.revokedAt = none ∧ 100 < s.refreshExpiresAt) ∧
    refresh 100 10 99 1000 60 c.db = (.notFound, c.db) ∧
    ¬ ∃ s' ∈ (refresh 100 10 99 1000 60 c.db).2.sessions, s'.id = 7 ∧ s'.revokedAt ≠ none := by
  exact exists_of_run (by decide +kernel)

end Jarvis.AppApi
