import Jarvis.Vault.Store

/-!
# The Vault: keys, and requests that are repeated

What holds of the key store in every interleaving of its calls. The transaction of `create` that is
about to commit has its request id to itself, knows every active key of its tenant and provider, and
has updated it (`Work.Good`); two transactions have different request ids, advisory locks, updated
rows and new keys (`Apart`).
-/

namespace Jarvis.Vault

open Pool Steps

/-! ### Rows -/

/-- Source: `provider_keys_state_consistent` -/
def KeyRow.Consistent (r : KeyRow) : Prop :=
  (r.status = .active ∧
    r.kekId ≠ none ∧ r.wrappedDek ≠ none ∧ r.dekNonce ≠ none ∧ r.ciphertext ≠ none ∧
      r.nonce ≠ none ∧
    r.revokedBy = none ∧ r.revokeTime = none ∧ r.revocationReason = none) ∨
  (r.status = .revoked ∧
    r.kekId = none ∧ r.wrappedDek = none ∧ r.dekNonce = none ∧ r.ciphertext = none ∧
      r.nonce = none ∧
    r.revokedBy ≠ none ∧ r.revokeTime ≠ none ∧ r.revocationReason ≠ none)

variable {tenantId keyId : Uuid} {r x : KeyRow} {db db' : DB}

theorem KeyRow.isActive_iff {provider : Provider} :
    r.isActive tenantId provider = true ↔
      r.tenantId = tenantId ∧ r.provider = provider ∧ r.status = .active := by
  simp [isActive]

theorem KeyRow.revoked_of_not (ht : r.tenantId = tenantId) (hk : r.keyId = keyId)
    (h : ¬ r.isActiveKey tenantId keyId = true) : r.status = .revoked := by
  cases hst : r.status with
  | active => exact absurd (decide_eq_true ⟨ht, hk, hst⟩) h
  | revoked => rfl

theorem NewKey.row_consistent (new : NewKey) (now : Time) : (new.row now).Consistent :=
  .inl ⟨rfl, nofun, nofun, nofun, nofun, nofun, rfl, rfl, rfl⟩

theorem KeyRow.revoke_consistent (reason : RevocationReason) (revokedBy : String) (now : Time)
    (r : KeyRow) : (r.revoke reason revokedBy now).Consistent :=
  .inr ⟨rfl, rfl, rfl, rfl, rfl, rfl, nofun, nofun, nofun⟩

/-- A row later on: as it was, or revoked since. -/
def KeyRow.Later (r x : KeyRow) : Prop :=
  x = r ∨ r.status = .active ∧ ∃ reason revokedBy now, x = r.revoke reason revokedBy now

/-- A revoked key stays as it is. -/
theorem KeyRow.Later.eq (h : r.Later x) (hr : r.status = .revoked) : x = r := by
  rcases h with rfl | ⟨ha, -⟩
  · rfl
  · cases hr.symm.trans ha

/-- A row keeps its tenant and its id. -/
theorem KeyRow.Later.ids (h : r.Later x) :
    x.tenantId = r.tenantId ∧ x.keyId = r.keyId := by
  rcases h with rfl | ⟨-, _, _, _, rfl⟩ <;> exact ⟨rfl, rfl⟩

/-- Every row of the one state is there later on. -/
def DB.Goes (db db' : DB) : Prop := ∀ r ∈ db.keys, ∃ x ∈ db'.keys, r.Later x

/-- A key is stored; and with these metadata, if they say that it is revoked. -/
def DB.Told (db : DB) (m : KeyMetadata) : Prop :=
  ∃ r ∈ db.keys, r.tenantId = m.tenantId ∧ r.keyId = m.keyId ∧
    (m.status = .revoked → r.metadata = m)

/-- A key is stored and revoked. -/
def DB.Ended (db : DB) (tenantId keyId : Uuid) : Prop :=
  ∃ r ∈ db.keys, r.tenantId = tenantId ∧ r.keyId = keyId ∧ r.status = .revoked

theorem DB.told_metadata (h : r ∈ db.keys) : db.Told r.metadata :=
  ⟨r, h, rfl, rfl, fun _ => rfl⟩

theorem DB.Told.goes (h : db.Told m) (hgo : db.Goes db') :
    db'.Told m := by
  obtain ⟨r, hr, ht, hk, hm⟩ := h
  obtain ⟨x, hx, hlater⟩ := hgo r hr
  obtain ⟨hxt, hxk⟩ := hlater.ids
  refine ⟨x, hx, hxt.trans ht, hxk.trans hk, fun hrev => ?_⟩
  have hm := hm hrev
  rw [hlater.eq (hm ▸ hrev : r.metadata.status = .revoked), hm]

theorem DB.Ended.goes (h : db.Ended tenantId keyId) (hgo : db.Goes db') :
    db'.Ended tenantId keyId := by
  obtain ⟨r, hr, ht, hk, hrev⟩ := h
  obtain ⟨x, hx, hlater⟩ := hgo r hr
  obtain rfl := hlater.eq hrev
  exact ⟨x, hx, ht, hk, hrev⟩

/-- The primary key of `create_key_requests`. -/
def RequestRow.key (q : RequestRow) : Uuid × Uuid := (q.tenantId, q.requestId)

theorem DB.request_eq :
    db.request t k = Table.row RequestRow.key (t, k) db.requests := by
  simp [request, Table.row, RequestRow.key, Prod.ext_iff]

theorem NewKey.lockName_congr {new new' : NewKey} (ht : new.tenantId = new'.tenantId)
    (hp : new.provider = new'.provider) : new.lockName = new'.lockName := by
  unfold lockName
  rw [ht, hp]

/-! ### What threads know -/

/-- The record of a request, as `create` inserts it. -/
def NewKey.record (new : NewKey) (now : Time) (replaced : Option Uuid) : Option RequestRow :=
  new.idempotency.map fun idem =>
    ⟨new.tenantId, idem.requestId, idem.fingerprint, new.keyId, replaced, now⟩

/-- The advisory lock is held. -/
def Pc.locked (pc : Pc) : Prop := pc ≠ .claim ∧ pc ≠ .lock

/-- The active keys have been looked for. -/
def Pc.looked (pc : Pc) : Prop := pc = .insert ∨ pc = .note ∨ pc = .commit

/-- The new key has been inserted. -/
def Pc.inserted (pc : Pc) : Prop := pc = .note ∨ pc = .commit

/-- The replaced key in the record of the request. -/
def Work.noted (w : Work) : Pc → Option Uuid
  | .commit => w.replaced.map KeyMetadata.keyId
  | _ => none

/-- What the transaction of `create` has written fits the tables. -/
structure Work.Good (db : DB) (new : NewKey) (now : Time) (pc : Pc) (w : Work) : Prop where
  unclaimed : pc = .claim → w = {}
  claimed : pc ≠ .claim → w.request = new.record now (w.noted pc)
  free : ∀ q ∈ w.request, ∀ x ∈ db.requests, x.key ≠ q.key
  updated : ∀ id ∈ w.revoked, ∃ r ∈ db.keys, r.keyId = id ∧
    r.isActive new.tenantId new.provider = true
  replaced : ∀ m ∈ w.replaced, ∃ r ∈ db.keys, r.keyId ∈ w.revoked ∧
    (r.revoke .rotated new.createdBy now).metadata = m
  only : pc.looked → ∀ r ∈ db.keys, r.isActive new.tenantId new.provider = true →
    r.keyId ∈ w.revoked
  fresh : pc.inserted → ∀ r ∈ db.keys, r.keyId ≠ new.keyId

/-- If a call has a request id, the key is recorded for it and its payload. -/
def Recorded (db : DB) (new : NewKey) (keyId : Uuid) : Prop :=
  ∀ idem, new.idempotency = some idem → ∃ q ∈ db.requests, q.key = (new.tenantId, idem.requestId) ∧
    q.payloadFingerprint = idem.fingerprint ∧ q.keyId = keyId

/-- What a reply says of the tables. -/
def Answered (db : DB) : Call → Reply → Prop
  | .create new _, .created (.ok created) =>
    Recorded db new created.key.keyId ∧ db.Told created.key ∧
      ∀ m ∈ created.replaced, db.Told m ∧ m.tenantId = new.tenantId ∧ m.status = .revoked
  | .revoke tenantId keyId _ _ _, .revoked (.ok m) =>
    db.Told m ∧ m.tenantId = tenantId ∧ m.keyId = keyId
  | _, _ => True

/-- What a thread knows. -/
def Local.Good (db : DB) : Call → Local → Prop
  | .create new now, .tx pc w => w.Good db new now pc
  | .create new _, .replay idem => new.idempotency = some idem
  | .create new _, .replayKey keyId replaced =>
    Recorded db new keyId ∧ ∀ id ∈ replaced, db.Ended new.tenantId id
  | .create new _, .replayReplaced key id =>
    Recorded db new key.keyId ∧ db.Told key ∧ db.Ended new.tenantId id
  | .create _ _, _ => False
  | _, _ => True

/-- What the locks of two threads exclude. -/
structure Apart (hash : String → BitVec 64) (x y : Thread) : Prop where
  claims : ∀ k, x.claims = some k → y.claims ≠ some k
  locks : ∀ k, x.locks hash = some k → y.locks hash ≠ some k
  updates : ∀ id ∈ x.updates, id ∉ y.updates
  inserts : ∀ r ∈ x.inserts, ∀ r' ∈ y.inserts, r.keyId ≠ r'.keyId

instance (hash : String → BitVec 64) : Std.Symm (Apart hash) where
  symm _ _ h := ⟨fun k hy hx => h.claims k hx hy, fun k hy hx => h.locks k hx hy,
    fun id hy hx => h.updates id hx hy, fun r hr r' hr' => (h.inserts r' hr' r hr).symm⟩

/-- The tables, and the replies given. -/
structure Kept (db : DB) (log : List (Call × Reply)) : Prop where
  keyed : Table.Keyed KeyRow.keyId db.keys
  one : ∀ r ∈ db.keys, ∀ x ∈ db.keys, r.status = .active → x.status = .active →
    r.tenantId = x.tenantId → r.provider = x.provider → r = x
  consistent : ∀ r ∈ db.keys, r.Consistent
  requests : Table.Keyed RequestRow.key db.requests
  replaced : ∀ q ∈ db.requests, ∀ id ∈ q.replacedKeyId, db.Ended q.tenantId id
  replies : ∀ x ∈ log, Answered db x.1 x.2

/-! ### What the writes do to the rows -/

variable {now : Time} {w : Work} {new : NewKey} {revokedBy : String} {reason : RevocationReason}

section

variable {r : KeyRow}

theorem DB.mem_commit_keys :
    r ∈ (db.commit new now w).keys ↔
      (∃ x ∈ db.keys, (if x.keyId ∈ w.revoked then x.revoke .rotated new.createdBy now else x) =
        r) ∨ r = new.row now := by
  simp [commit, Table.mem_set]

theorem DB.mem_commit_requests :
    q ∈ (db.commit new now w).requests ↔ q ∈ db.requests ∨ w.request = some q := by
  cases hw : w.request with
  | none => simp [commit, hw]
  | some x => simp [commit, hw, eq_comm]

/-- A key that is active after `create` has committed is new, or was and is not replaced. -/
theorem DB.active_of_commit (h : r ∈ (db.commit new now w).keys) (ha : r.status = .active) :
    (r ∈ db.keys ∧ r.keyId ∉ w.revoked) ∨ r = new.row now := by
  rcases mem_commit_keys.mp h with ⟨x, hx, rfl⟩ | rfl
  · split_ifs at ha ⊢ with hid
    · cases ha
    · exact .inl ⟨hx, hid⟩
  · exact .inr rfl

/-- A row that is not replaced stays. -/
theorem DB.mem_commit_of_not_mem (h : r ∈ db.keys) (hid : r.keyId ∉ w.revoked) :
    r ∈ (db.commit new now w).keys :=
  mem_commit_keys.mpr (.inl ⟨r, h, if_neg hid⟩)

theorem DB.keyId_of_commit (h : r ∈ (db.commit new now w).keys) :
    (∃ x ∈ db.keys, x.keyId = r.keyId) ∨ r = new.row now := by
  rcases mem_commit_keys.mp h with ⟨x, hx, rfl⟩ | rfl
  · exact .inl ⟨x, hx, by split_ifs <;> rfl⟩
  · exact .inr rfl

theorem DB.mem_revoke_keys :
    r ∈ (db.revoke tenantId keyId reason revokedBy now).keys ↔
      ∃ x ∈ db.keys, (if x.isActiveKey tenantId keyId then x.revoke reason revokedBy now else x) =
      r :=
  Table.mem_set

theorem DB.active_of_revoke (h : r ∈ (db.revoke tenantId keyId reason revokedBy now).keys)
    (ha : r.status = .active) : r ∈ db.keys := by
  obtain ⟨x, hx, rfl⟩ := mem_revoke_keys.mp h
  split_ifs at ha ⊢ with hid
  · cases ha
  · exact hx

theorem DB.mem_revoke_of_ne (h : r ∈ db.keys) (hid : r.keyId ≠ keyId) :
    r ∈ (db.revoke tenantId keyId reason revokedBy now).keys :=
  mem_revoke_keys.mpr ⟨r, h, if_neg (by simp [KeyRow.isActiveKey, hid])⟩

theorem DB.keyId_of_revoke (h : r ∈ (db.revoke tenantId keyId reason revokedBy now).keys) :
    ∃ x ∈ db.keys, x.keyId = r.keyId := by
  obtain ⟨x, hx, rfl⟩ := mem_revoke_keys.mp h
  exact ⟨x, hx, by split_ifs <;> rfl⟩

end

/-! ### The writes keep what the tables and the other threads rely on -/

theorem Recorded.mono (h : Recorded db new keyId) (hsub : ∀ q ∈ db.requests, q ∈ db'.requests) :
    Recorded db' new keyId := by
  intro idem hidem
  obtain ⟨q, hq, hrest⟩ := h idem hidem
  exact ⟨q, hsub q hq, hrest⟩

/-- What a reply says stays so. -/
theorem Answered.mono {c : Call} {r : Reply} (h : Answered db c r)
    (hsub : ∀ q ∈ db.requests, q ∈ db'.requests) (hgo : db.Goes db') : Answered db' c r := by
  unfold Answered at h ⊢
  split at h
  · obtain ⟨hrec, hkey, hold⟩ := h
    exact ⟨hrec.mono hsub, hkey.goes hgo, fun m hm => ⟨(hold m hm).1.goes hgo, (hold m hm).2⟩⟩
  · exact ⟨h.1.goes hgo, h.2⟩
  · trivial

variable {log : List (Call × Reply)} {hash : String → BitVec 64} {pc : Pc}

section

theorem Work.Good.recorded (h : w.Good db new now .commit) :
    Recorded (db.commit new now w) new new.keyId := by
  have hw := h.claimed nofun
  intro idem hidem
  rw [NewKey.record, hidem, Option.map_some] at hw
  exact ⟨_, DB.mem_commit_requests.mpr (.inr hw), rfl, rfl, rfl⟩

/-- The rows that a transaction updates are active. -/
theorem Work.Good.active (hw : w.Good db new now pc) (h : Kept db log) (hr : r ∈ db.keys)
    (hid : r.keyId ∈ w.revoked) : r.isActive new.tenantId new.provider = true := by
  obtain ⟨x, hx, hxid, hact⟩ := hw.updated _ hid
  obtain rfl := h.keyed.eq hx hr hxid
  exact hact

section

variable (h : Kept db log) (hw : w.Good db new now .commit)
include h hw

theorem Kept.goes_commit : db.Goes (db.commit new now w) := by
  intro r hr
  refine ⟨_, DB.mem_commit_keys.mpr (.inl ⟨r, hr, rfl⟩), ?_⟩
  split_ifs with hid
  · exact .inr ⟨(KeyRow.isActive_iff.mp (hw.active h hr hid)).2.2, _, _, _, rfl⟩
  · exact .inl rfl

/-- The key that `create` replaces is stored as it says. -/
theorem Kept.replaced_commit {m : KeyMetadata} (hm : m ∈ w.replaced) :
    ∃ r ∈ (db.commit new now w).keys, r.metadata = m ∧
      r.tenantId = new.tenantId ∧ r.status = .revoked := by
  obtain ⟨r, hr, hid, rfl⟩ := hw.replaced m hm
  refine ⟨_, DB.mem_commit_keys.mpr (.inl ⟨r, hr, if_pos hid⟩), rfl, ?_, rfl⟩
  exact (KeyRow.isActive_iff.mp (hw.active h hr hid)).1

theorem Kept.commit : Kept (db.commit new now w) log where
  keyed := by
    refine Table.Keyed.insert (Table.Keyed.set (fun _ => rfl) h.keyed) ?_
    rw [Table.row_eq_none]
    intro r hr
    obtain ⟨x, hx, rfl⟩ := Table.mem_set.mp hr
    have hx := hw.fresh (.inr rfl) x hx
    split_ifs <;> exact hx
  one := by
    intro r hr x hx har hax ht hp
    have hnew : ∀ y ∈ db.keys, y.keyId ∉ w.revoked → y.status = .active →
        y.tenantId = new.tenantId → y.provider = new.provider → False := fun y hy hid ha ht hp =>
      hid (hw.only (.inr (.inr rfl)) y hy (KeyRow.isActive_iff.mpr ⟨ht, hp, ha⟩))
    rcases DB.active_of_commit hr har with ⟨hr, hrid⟩ | rfl
    · rcases DB.active_of_commit hx hax with ⟨hx, -⟩ | rfl
      · exact h.one r hr x hx har hax ht hp
      · exact (hnew r hr hrid har ht hp).elim
    · rcases DB.active_of_commit hx hax with ⟨hx, hxid⟩ | rfl
      · exact (hnew x hx hxid hax ht.symm hp.symm).elim
      · rfl
  consistent := by
    intro r hr
    rcases DB.mem_commit_keys.mp hr with ⟨x, hx, rfl⟩ | rfl
    · split_ifs
      · exact KeyRow.revoke_consistent _ _ _ _
      · exact h.consistent x hx
    · exact NewKey.row_consistent _ _
  requests := by
    cases hq : w.request with
    | none => simpa only [DB.commit, hq] using h.requests
    | some q =>
      simp only [DB.commit, hq]
      exact h.requests.insert (Table.row_eq_none.mpr (hw.free q hq))
  replaced := by
    intro q hq id hid
    rcases DB.mem_commit_requests.mp hq with hq | hq
    · exact (h.replaced q hq id hid).goes (h.goes_commit hw)
    · obtain ⟨idem, -, rfl⟩ := Option.map_eq_some_iff.mp ((hw.claimed nofun).symm.trans hq)
      obtain ⟨m, hm, rfl⟩ := Option.map_eq_some_iff.mp hid
      obtain ⟨r, hr, rfl, ht, hrev⟩ := h.replaced_commit hw hm
      exact ⟨r, hr, ht, rfl, hrev⟩
  replies x hx :=
    (h.replies x hx).mono (fun _ hq => DB.mem_commit_requests.mpr (.inl hq)) (h.goes_commit hw)

/-- What the reply of `create` says holds when it commits. -/
theorem Kept.answered_commit : Answered (db.commit new now w) (.create new now)
      (.created (.ok ⟨(new.row now).metadata, w.replaced, false⟩)) := by
  refine ⟨hw.recorded, DB.told_metadata (DB.mem_commit_keys.mpr (.inr rfl)), fun m hm => ?_⟩
  obtain ⟨r, hr, rfl, ht, hrev⟩ := h.replaced_commit hw hm
  exact ⟨DB.told_metadata hr, ht, hrev⟩

end

theorem DB.goes_revoke : db.Goes (db.revoke tenantId keyId reason revokedBy now) := by
  intro r hr
  refine ⟨_, DB.mem_revoke_keys.mpr ⟨r, hr, rfl⟩, ?_⟩
  split_ifs with hact
  · exact .inr ⟨(of_decide_eq_true hact).2.2, _, _, _, rfl⟩
  · exact .inl rfl

theorem Kept.revoke (h : Kept db log) : Kept (db.revoke tenantId keyId reason revokedBy now) log
    where
  keyed := Table.Keyed.set (fun _ => rfl) h.keyed
  one r hr x hx har hax :=
    h.one r (DB.active_of_revoke hr har) x (DB.active_of_revoke hx hax) har hax
  consistent := by
    intro r hr
    obtain ⟨x, hx, rfl⟩ := DB.mem_revoke_keys.mp hr
    split_ifs
    · exact KeyRow.revoke_consistent _ _ _ _
    · exact h.consistent x hx
  requests := h.requests
  replaced q hq id hid := (h.replaced q hq id hid).goes DB.goes_revoke
  replies x hx := (h.replies x hx).mono (fun _ hq => hq) DB.goes_revoke

variable {new' : NewKey} {now' : Time} {w' : Work}

/-- One transaction commits beside another. -/
theorem Work.Good.of_commit (h : w'.Good db new' now' pc)
    (ha : Apart hash (.create new now, .tx .commit w) (.create new' now', .tx pc w')) :
    w'.Good (db.commit new now w) new' now' pc where
  unclaimed := h.unclaimed
  claimed := h.claimed
  free := by
    intro q hq x hx
    rcases DB.mem_commit_requests.mp hx with hx | hx
    · exact h.free q hq x hx
    · intro hk
      refine ha.claims x.key ?_ ?_
      · simp only [Thread.claims, hx]
        rfl
      · simp only [Thread.claims, Option.mem_def.mp hq, hk]
        rfl
  updated := by
    intro id hid
    obtain ⟨r, hr, rfl, hact⟩ := h.updated id hid
    exact ⟨r, DB.mem_commit_of_not_mem hr fun hmem => ha.updates _ hmem hid, rfl, hact⟩
  replaced := by
    intro m hm
    obtain ⟨r, hr, hid, hrm⟩ := h.replaced m hm
    exact ⟨r, DB.mem_commit_of_not_mem hr fun hmem => ha.updates _ hmem hid, hid, hrm⟩
  only := by
    intro hpc r hr hact
    obtain ⟨ht, hp, hs⟩ := KeyRow.isActive_iff.mp hact
    rcases DB.active_of_commit hr hs with ⟨hr, -⟩ | rfl
    · exact h.only hpc r hr hact
    · -- the two would hold one lock
      have hname : new.lockName = new'.lockName := NewKey.lockName_congr ht hp
      refine (ha.locks (hash new.lockName) rfl ?_).elim
      rw [hname]
      rcases hpc with rfl | rfl | rfl <;> rfl
  fresh := by
    intro hpc r hr
    rcases DB.keyId_of_commit hr with ⟨x, hx, hid⟩ | rfl
    · exact hid ▸ h.fresh hpc x hx
    · exact ha.inserts (new.row now) rfl (new'.row now') (by rcases hpc with rfl | rfl <;> rfl)

/-- `revoke` updates a row beside a transaction that does not hold it. -/
theorem Work.Good.of_revoke (h : w'.Good db new' now' pc) (hid : keyId ∉ w'.revoked) :
    w'.Good (db.revoke tenantId keyId reason revokedBy now) new' now' pc where
  unclaimed := h.unclaimed
  claimed := h.claimed
  free := h.free
  updated := by
    intro id hmem
    obtain ⟨r, hr, rfl, hact⟩ := h.updated id hmem
    exact ⟨r, DB.mem_revoke_of_ne hr fun heq => hid (heq ▸ hmem), rfl, hact⟩
  replaced := by
    intro m hm
    obtain ⟨r, hr, hmem, hrm⟩ := h.replaced m hm
    exact ⟨r, DB.mem_revoke_of_ne hr fun heq => hid (heq ▸ hmem), hmem, hrm⟩
  only hpc r hr hact :=
    h.only hpc r (DB.active_of_revoke hr (KeyRow.isActive_iff.mp hact).2.2) hact
  fresh := by
    intro hpc r hr
    obtain ⟨x, hx, hxr⟩ := DB.keyId_of_revoke hr
    exact hxr ▸ h.fresh hpc x hx

variable {y : Thread}

/-- What is left for a write to show: that the transactions of `create` still fit. -/
theorem Local.Good.write (h : y.2.Good db y.1) (hsub : ∀ q ∈ db.requests, q ∈ db'.requests)
    (hgo : db.Goes db')
    (htx : ∀ new now pc w, y = (.create new now, .tx pc w) → w.Good db new now pc →
      w.Good db' new now pc) :
    y.2.Good db' y.1 := by
  obtain ⟨c, t⟩ := y
  cases c with
  | create new' now' =>
    cases t with
    | tx pc w' => exact htx _ _ _ _ rfl h
    | replay idem => exact h
    | replayKey keyId replaced => exact ⟨h.1.mono hsub, fun id hid => (h.2 id hid).goes hgo⟩
    | replayReplaced key replaced => exact ⟨h.1.mono hsub, h.2.1.goes hgo, h.2.2.goes hgo⟩
    | _ => exact h
  | _ => trivial

theorem Local.Good.of_commit (h : y.2.Good db y.1) (hk : Kept db log)
    (hw : w.Good db new now .commit) (ha : Apart hash (.create new now, .tx .commit w) y) :
    y.2.Good (db.commit new now w) y.1 := by
  refine h.write (fun _ hq => DB.mem_commit_requests.mpr (.inl hq)) (hk.goes_commit hw) ?_
  rintro new' now' pc w' rfl hw'
  exact hw'.of_commit ha

theorem Local.Good.of_revoke (h : y.2.Good db y.1) (hid : keyId ∉ y.updates) :
    y.2.Good (db.revoke tenantId keyId reason revokedBy now) y.1 := by
  refine h.write (fun _ hq => hq) DB.goes_revoke ?_
  rintro new' now' pc w' rfl hw'
  exact hw'.of_revoke hid

end

/-! ### One statement -/

variable {q : RequestRow}

section

variable {others : List Thread} {t t' : Local} {c : Call} {r : Reply}

/-- Whether a thread is in the transaction of `create`. -/
def Local.inTx : Local → Bool
  | .tx _ _ => true
  | _ => false

/-- A thread without a transaction holds nothing. -/
theorem Apart.of_idle (ht : t.inTx = false) : Apart hash (c, t) y := by
  have hidle : Thread.claims (c, t) = none ∧ Thread.locks hash (c, t) = none ∧
      Thread.updates (c, t) = [] ∧ Thread.inserts (c, t) = none := by
    cases t with
    | tx pc w => cases ht
    | _ => cases c <;> exact ⟨rfl, rfl, rfl, rfl⟩
  obtain ⟨hc, hl, hu, hi⟩ := hidle
  refine ⟨fun k h => ?_, fun k h => ?_, fun id h => ?_, fun r h => ?_⟩
  · rw [hc] at h
    cases h
  · rw [hl] at h
    cases h
  · rw [hu] at h
    cases h
  · rw [hi] at h
    cases h

/-- What the transaction of `create` holds, by how far it has come. -/
theorem apart_tx :
    Apart hash (.create new now, .tx pc w) o ↔
      (∀ q ∈ w.request, o.claims ≠ some q.key) ∧
      (pc.locked → o.locks hash ≠ some (hash new.lockName)) ∧
      (∀ id ∈ w.revoked, id ∉ o.updates) ∧
      (pc.inserted → ∀ r ∈ o.inserts, r.keyId ≠ new.keyId) := by
  have hl : ∀ k, Thread.locks hash (.create new now, .tx pc w) = some k ↔
      pc.locked ∧ hash new.lockName = k := by
    intro k
    cases pc <;> simp [Thread.locks, Pc.locked]
  have hi : ∀ r, r ∈ Thread.inserts (.create new now, .tx pc w) ↔ pc.inserted ∧
    new.row now = r := by
    intro r
    cases pc <;> simp [Thread.inserts, Pc.inserted]
  constructor
  · intro h
    refine ⟨fun q hq => h.claims _ (by simp only [Thread.claims, Option.mem_def.mp hq]; rfl),
      fun hpc => h.locks _ ((hl _).mpr ⟨hpc, rfl⟩), h.updates, fun hpc r hr => ?_⟩
    exact (h.inserts _ ((hi _).mpr ⟨hpc, rfl⟩) r hr).symm
  · rintro ⟨hclaims, hlocks, hupdates, hinserts⟩
    refine ⟨fun k hk => ?_, fun k hk => ?_, hupdates, fun r hr r' hr' => ?_⟩
    · obtain ⟨q, hq, rfl⟩ := Option.map_eq_some_iff.mp hk
      exact hclaims q hq
    · obtain ⟨hpc, rfl⟩ := (hl k).mp hk
      exact hlocks hpc
    · obtain ⟨hpc, rfl⟩ := (hi r).mp hr
      exact (hinserts hpc r' hr').symm

theorem forall_of_any {α : Type} {l : List α} {p : α → Prop} [DecidablePred p]
    (h : ¬ (l.any fun x => decide (p x)) = true) : ∀ x ∈ l, ¬ p x := by
  simpa using h

/-- A statement of the transaction of `create` after which it goes on. -/
theorem nextCreate_more (hg : w.Good db new now pc)
    (ha : ∀ o ∈ others, Apart hash (.create new now, .tx pc w) o)
    (h : nextCreate hash db others new now pc w = some (.more db' t')) :
    db' = db ∧ t'.Good db (.create new now) ∧ ∀ o ∈ others, Apart hash (.create new now, t') o := by
  have ha o ho := apart_tx.mp (ha o ho)
  cases pc with
  | claim =>
    obtain rfl := hg.unclaimed rfl
    cases hidem : new.idempotency with
    | none =>
      simp only [nextCreate, hidem, Option.some.injEq, Outcome.more.injEq] at h
      obtain ⟨rfl, rfl⟩ := h
      refine ⟨rfl, ⟨nofun, fun _ => ?_, hg.free, hg.updated, hg.replaced, ?_, ?_⟩,
        fun o ho => apart_tx.mpr ?_⟩
      · rw [NewKey.record, hidem]
        rfl
      · simp [Pc.looked]
      · simp [Pc.inserted]
      · exact ⟨(ha o ho).1, by simp [Pc.locked], (ha o ho).2.2.1, by simp [Pc.inserted]⟩
    | some idem =>
      simp only [nextCreate, hidem] at h
      split_ifs at h with hr hw
      · obtain ⟨rfl, rfl⟩ := Outcome.more.inj (Option.some.inj h)
        exact ⟨rfl, hidem, fun o _ => .of_idle rfl⟩
      · obtain ⟨rfl, rfl⟩ := Outcome.more.inj (Option.some.inj h)
        rw [DB.request_eq, Bool.not_eq_true, Option.isSome_eq_false_iff, Option.isNone_iff_eq_none,
          Table.row_eq_none] at hr
        refine ⟨rfl, ⟨nofun, fun _ => ?_, ?_, hg.updated, hg.replaced, ?_, ?_⟩,
          fun o ho => apart_tx.mpr ?_⟩
        · rw [NewKey.record, hidem]
          rfl
        · rintro q ⟨⟩ x hx
          exact hr x hx
        · simp [Pc.looked]
        · simp [Pc.inserted]
        · refine ⟨?_, by simp [Pc.locked], (ha o ho).2.2.1, by simp [Pc.inserted]⟩
          rintro q ⟨⟩
          exact forall_of_any hw o ho
  | lock =>
    simp only [nextCreate] at h
    split_ifs at h with hl
    obtain ⟨rfl, rfl⟩ := Outcome.more.inj (Option.some.inj h)
    refine ⟨rfl, ⟨nofun, fun _ => hg.claimed nofun, hg.free, hg.updated, hg.replaced, ?_, ?_⟩,
      fun o ho => apart_tx.mpr ?_⟩
    · simp [Pc.looked]
    · simp [Pc.inserted]
    · exact ⟨(ha o ho).1, fun _ => forall_of_any hl o ho, (ha o ho).2.2.1, by simp [Pc.inserted]⟩
  | replace =>
    have hlock o ho := (ha o ho).2.1 ⟨nofun, nofun⟩
    simp only [nextCreate] at h
    split_ifs at h with hreplace hw hrows
    · obtain ⟨rfl, rfl⟩ := Outcome.more.inj (Option.some.inj h)
      refine ⟨rfl, ⟨nofun, fun _ => hg.claimed nofun, hg.free, ?_, ?_, fun _ => ?_, ?_⟩,
        fun o ho => apart_tx.mpr ⟨(ha o ho).1, fun _ => hlock o ho, ?_, by simp [Pc.inserted]⟩⟩
      · intro id hid
        obtain ⟨r, hr, rfl⟩ := List.mem_map.mp hid
        exact ⟨r, (List.mem_filter.mp hr).1, rfl, (List.mem_filter.mp hr).2⟩
      · intro m hm
        obtain ⟨r, hr, rfl⟩ := Option.map_eq_some_iff.mp hm
        have hr := List.mem_of_mem_head? hr
        exact ⟨r, (List.mem_filter.mp hr).1, List.mem_map_of_mem hr, rfl⟩
      · exact fun r hr hact => List.mem_map_of_mem (List.mem_filter.mpr ⟨hr, hact⟩)
      · simp [Pc.inserted]
      · intro id hid hmem
        obtain ⟨r, hr, rfl⟩ := List.mem_map.mp hid
        exact hw (List.any_eq_true.mpr ⟨r, hr, List.any_eq_true.mpr ⟨o, ho, decide_eq_true hmem⟩⟩)
    · cases h
    · obtain ⟨rfl, rfl⟩ := Outcome.more.inj (Option.some.inj h)
      refine ⟨rfl, ⟨nofun, fun _ => hg.claimed nofun, hg.free, hg.updated, hg.replaced,
        fun _ r hr hact => ?_, ?_⟩,
        fun o ho => apart_tx.mpr ⟨(ha o ho).1, fun _ => hlock o ho, (ha o ho).2.2.1, ?_⟩⟩
      · exact absurd (List.mem_filter.mpr ⟨hr, hact⟩)
          (by rw [not_not.mp hrows]; exact List.not_mem_nil)
      · simp [Pc.inserted]
      · simp [Pc.inserted]
  | insert =>
    have hlock o ho := (ha o ho).2.1 ⟨nofun, nofun⟩
    simp only [nextCreate] at h
    split_ifs at h with hw hkeys
    · cases h
    · obtain ⟨rfl, rfl⟩ := Outcome.more.inj (Option.some.inj h)
      refine ⟨rfl, ⟨nofun, fun _ => hg.claimed nofun, hg.free, hg.updated, hg.replaced,
        fun _ => hg.only (.inl rfl), fun _ r hr hid => ?_⟩, fun o ho => apart_tx.mpr ⟨(ha o ho).1,
          fun _ => hlock o ho, (ha o ho).2.2.1, fun _ r hr hid => ?_⟩⟩
      · exact hkeys (List.any_eq_true.mpr ⟨r, hr, decide_eq_true (.inl hid)⟩)
      · refine hw (List.any_eq_true.mpr ⟨o, ho, ?_⟩)
        rw [Option.mem_def.mp hr]
        simp [NewKey.conflicts, hid]
  | note =>
    have hlock o ho := (ha o ho).2.1 ⟨nofun, nofun⟩
    simp only [nextCreate, Option.some.injEq, Outcome.more.injEq] at h
    obtain ⟨rfl, rfl⟩ := h
    have hkey : ∀ q ∈ w.request.map (fun q => { q with
        replacedKeyId := w.replaced.map KeyMetadata.keyId : RequestRow }),
        ∃ x ∈ w.request, x.key = q.key := by
      intro q hq
      obtain ⟨x, hx, rfl⟩ := Option.map_eq_some_iff.mp hq
      exact ⟨x, hx, rfl⟩
    refine ⟨rfl, ⟨nofun, fun _ => ?_, fun q hq => ?_, hg.updated, hg.replaced,
      fun _ => hg.only (.inr (.inl rfl)), fun _ => hg.fresh (.inl rfl)⟩,
      fun o ho => apart_tx.mpr ⟨fun q hq => ?_, fun _ => hlock o ho, (ha o ho).2.2.1,
        fun _ => (ha o ho).2.2.2 (.inl rfl)⟩⟩
    · rw [hg.claimed nofun, NewKey.record, NewKey.record, Option.map_map]
      rfl
    · obtain ⟨x, hx, hxq⟩ := hkey q hq
      exact hxq ▸ hg.free x hx
    · obtain ⟨x, hx, hxq⟩ := hkey q hq
      exact hxq ▸ (ha o ho).1 x hx
  | commit => simp [nextCreate] at h

/-- `metadata` returns what is stored. -/
theorem DB.row_of_metadata (h : db.metadata tenantId keyId = .ok m) :
    ∃ r ∈ db.keys, r.metadata = m ∧ r.tenantId = tenantId ∧ r.keyId = keyId := by
  obtain ⟨r, hr, rfl⟩ := Option.map_eq_some_iff.mp (okOr_eq_ok.mp h)
  have hp := List.find?_some hr
  exact ⟨r, List.mem_of_find?_eq_some hr, rfl, of_decide_eq_true hp⟩

variable {idem : Idempotency}

theorem recorded_of_request (hidem : new.idempotency = some idem)
    (hq : db.request new.tenantId idem.requestId = some q)
    (hf : q.payloadFingerprint = idem.fingerprint) : Recorded db new q.keyId := by
  intro idem' hidem'
  obtain rfl : idem = idem' := Option.some.inj (hidem.symm.trans hidem')
  rw [DB.request_eq] at hq
  exact ⟨q, Table.row_mem hq, Table.row_key hq, hf, rfl⟩

/-- A statement after which a call goes on changes no row. -/
theorem next_more (hk : Kept db log) (hg : t.Good db c) (ha : ∀ o ∈ others, Apart hash (c, t) o)
    (h : next hash db others c t = some (.more db' t')) :
    db' = db ∧ t'.Good db c ∧ ∀ o ∈ others, Apart hash (c, t') o := by
  unfold next at h
  split at h
  · exact nextCreate_more hg ha h
  · split at h
    · cases h
    · rename_i q hq
      split_ifs at h with hf
      · cases h
      · obtain ⟨rfl, rfl⟩ := Outcome.more.inj (Option.some.inj h)
        refine ⟨rfl, ⟨recorded_of_request hg hq (not_not.mp hf), fun id hid => ?_⟩,
          fun o _ => .of_idle rfl⟩
        rw [DB.request_eq] at hq
        have hkey : q.key = _ := Table.row_key hq
        exact (Prod.mk.inj hkey).1 ▸ hk.replaced q (Table.row_mem hq) id hid
  · split at h
    · cases h
    · cases h
    · rename_i key id hm
      obtain ⟨rfl, rfl⟩ := Outcome.more.inj (Option.some.inj h)
      obtain ⟨r, hr, rfl, -, rfl⟩ := DB.row_of_metadata hm
      exact ⟨rfl, ⟨hg.1, DB.told_metadata hr, hg.2 id rfl⟩, fun o _ => .of_idle rfl⟩
  · split at h <;> cases h
  · cases h
  · cases h
  · split at h
    · obtain ⟨rfl, rfl⟩ := Outcome.more.inj (Option.some.inj h)
      exact ⟨rfl, trivial, fun o _ => .of_idle rfl⟩
    · split_ifs at h
      cases h
  · cases h
  · cases h

/-- The statement with which a call ends: the commit of `create`, the update of `revoke`, or one
that changes no row. -/
inductive Ends (db : DB) (others : List Thread) : Call → Local → DB → Reply → Prop where
  | commit {new : NewKey} {now : Time} {w : Work} :
      Ends db others (.create new now) (.tx .commit w) (db.commit new now w)
        (.created (.ok ⟨(new.row now).metadata, w.replaced, false⟩))
  | revoke {tenantId keyId : Uuid} {reason : RevocationReason} {revokedBy : String} {now : Time}
      {t : Local} {x : KeyRow} (hx : x ∈ db.keys) (hact : x.isActiveKey tenantId keyId = true)
      (h : ∀ o ∈ others, keyId ∉ o.updates) :
      Ends db others (.revoke tenantId keyId reason revokedBy now) t
        (db.revoke tenantId keyId reason revokedBy now)
        (.revoked (.ok (x.revoke reason revokedBy now).metadata))
  | same {c : Call} {t : Local} {r : Reply} (h : t.Good db c → Answered db c r) :
      Ends db others c t db r

/-- A reply that changes no row. -/
theorem Ends.of_done (h : some (Outcome.done (T := Local) db r') = some (.done db' r))
    (hr : t.Good db c → Answered db c r') : Ends db others c t db' r := by
  obtain ⟨rfl, rfl⟩ := Outcome.done.inj (Option.some.inj h)
  exact .same hr

theorem nextCreate_done (h : nextCreate hash db others new now pc w = some (.done db' r)) :
    Ends db others (.create new now) (.tx pc w) db' r := by
  cases pc with
  | claim =>
    simp only [nextCreate] at h
    split at h
    · cases h
    · split_ifs at h <;> cases h
  | lock =>
    simp only [nextCreate] at h
    split_ifs at h
    cases h
  | replace =>
    simp only [nextCreate] at h
    split_ifs at h
    · cases h
    · exact .of_done h fun _ => trivial
    · cases h
  | insert =>
    simp only [nextCreate] at h
    split_ifs at h
    · exact .of_done h fun _ => trivial
    · cases h
  | note => cases h
  | commit =>
    obtain ⟨rfl, rfl⟩ := Outcome.done.inj (Option.some.inj h)
    exact .commit

theorem next_done (hk : Kept db log) (h : next hash db others c t = some (.done db' r)) :
    Ends db others c t db' r := by
  unfold next at h
  split at h
  · exact nextCreate_done h
  · split at h
    · exact .of_done h fun _ => trivial
    · split_ifs at h
      · exact .of_done h fun _ => trivial
      · cases h
  · split at h
    · exact .of_done h fun _ => trivial
    · rename_i key hm
      refine .of_done h fun hg => ?_
      obtain ⟨r, hr, rfl, -, rfl⟩ := DB.row_of_metadata hm
      exact ⟨hg.1, DB.told_metadata hr, nofun⟩
    · cases h
  · split at h
    · exact .of_done h fun _ => trivial
    · rename_i old hm
      refine .of_done h fun ⟨hrec, hkey, x, hx, _, hxid, hrev⟩ => ⟨hrec, hkey, ?_⟩
      rintro m ⟨⟩
      obtain ⟨r, hr, rfl, ht, hid⟩ := DB.row_of_metadata hm
      obtain rfl := hk.keyed.eq hx hr (hxid.trans hid.symm)
      exact ⟨DB.told_metadata hr, ht, hrev⟩
  · exact .of_done h fun _ => trivial
  · exact .of_done h fun _ => trivial
  · split at h
    · cases h
    · rename_i r hr
      split_ifs at h with hw
      obtain ⟨rfl, rfl⟩ := Outcome.done.inj (Option.some.inj h)
      exact .revoke (List.mem_of_find?_eq_some hr) (List.find?_some hr) (forall_of_any hw)
  · rename_i tenantId keyId _ _ _
    refine .of_done h fun _ => ?_
    cases hm : db.metadata tenantId keyId with
    | error e => trivial
    | ok m =>
      obtain ⟨r, hr, rfl, ht, hid⟩ := DB.row_of_metadata hm
      exact ⟨DB.told_metadata hr, ht, hid⟩
  · cases h

/-- Once a request id is recorded with another payload, `create` does not wait, and ends with the
conflict. -/
theorem next_conflict (hk : Kept db log) (hg : t.Good db (.create new now)) (hq : q ∈ db.requests)
    (hidem : new.idempotency = some idem) (hkey : q.key = (new.tenantId, idem.requestId))
    (hf : q.payloadFingerprint ≠ idem.fingerprint) :
    (∃ o, next hash db others (.create new now) t = some o) ∧
      ∀ db' r, next hash db others (.create new now) t = some (.done db' r) →
        r = .created (.error .requestIdConflict) := by
  have hrow : db.request new.tenantId idem.requestId = some q := by
    rw [DB.request_eq, ← hkey]
    exact hk.requests.row_eq hq
  have hnot : ∀ keyId, ¬ Recorded db new keyId := by
    intro keyId h
    obtain ⟨x, hx, hxkey, hxf, -⟩ := h idem hidem
    obtain rfl := hk.requests.eq hx hq (hxkey.trans hkey.symm)
    exact hf hxf
  cases t with
  | tx pc w =>
    by_cases hpc : pc = .claim
    · subst hpc
      have hnext : next hash db others (.create new now) (.tx .claim w) =
        some (.more db (.replay idem)) := by
        simp only [next, nextCreate, hidem, hrow, Option.isSome_some, if_true]
      rw [hnext]
      exact ⟨⟨_, rfl⟩, fun _ _ h => by cases h⟩
    · -- the request id would be this transaction's
      have hw := hg.claimed hpc
      rw [NewKey.record, hidem, Option.map_some] at hw
      exact (hg.free _ hw q hq hkey).elim
  | replay idem' =>
    obtain rfl : idem = idem' := Option.some.inj (hidem.symm.trans hg)
    have hnext : next hash db others (.create new now) (.replay idem) =
        some (.done db (.created (.error .requestIdConflict))) := by
      simp only [next, hrow, if_pos hf]
    rw [hnext]
    refine ⟨⟨_, rfl⟩, fun db' r h => ?_⟩
    exact (Outcome.done.inj (Option.some.inj h)).2.symm
  | replayKey keyId replaced => exact (hnot keyId hg.1).elim
  | replayReplaced key replaced => exact (hnot key.keyId hg.1).elim
  | fetch | select | update | metadata => exact hg.elim

end

/-! ### Runs -/

section

variable {s s' : State DB Call Local Reply} {l : Label Call Unit Empty}
  {ls : List (Label Call Unit Empty)} {r : KeyRow}

/-- What a run keeps. -/
abbrev Sound (hash : String → BitVec 64) (s : State DB Call Local Reply) : Prop :=
  s.Good Kept Local.Good (Apart hash)

theorem enter_good (db : DB) (c : Call) : Local.Good db c ((keyStore hash).enter c) := by
  cases c with
  | create new now =>
    exact ⟨fun _ => rfl, fun h => (h rfl).elim, nofun, nofun, nofun, by simp [Pc.looked],
      by simp [Pc.inserted]⟩
  | fetchSealed | list | revoke => trivial

theorem enter_apart (c : Call) (y : Thread) : Apart hash (c, (keyStore hash).enter c) y := by
  cases c with
  | create new now =>
    exact apart_tx.mpr ⟨nofun, fun h => (h.1 rfl).elim, nofun, by simp [Pc.inserted]⟩
  | fetchSealed | list | revoke => exact .of_idle rfl

theorem Kept.reply {db : DB} {log : List (Call × Reply)} {c : Call} {r : Reply} (h : Kept db log)
    (hr : Answered db c r) : Kept db ((c, r) :: log) :=
  { h with replies := List.forall_mem_cons.mpr ⟨hr, h.replies⟩ }

theorem Sound.runs (hs : Sound hash s)
    (h : Runs (keyStore hash).step (fun _ _ => True) s ls s') : Sound hash s' := by
  refine System.inv ?_ ?_ ?_ ?_ h hs
  · exact fun s c _ _ => ⟨enter_good s.db c, fun y _ => enter_apart c y⟩
  · intro s i c t v db t' hs _ hx ho
    obtain ⟨hg, hothers, -⟩ := hs.split hx
    obtain ⟨rfl, hg', ha⟩ := next_more hs.data hg (fun o ho => (hothers o ho).2) ho
    exact ⟨hs.data, hg', fun y hy => ⟨(hothers y hy).1, ha y hy⟩⟩
  · intro s i c t v db r hs _ hx ho
    obtain ⟨hg, hothers, -⟩ := hs.split hx
    cases next_done hs.data ho with
    | commit =>
      exact ⟨(hs.data.commit hg).reply (hs.data.answered_commit hg),
        fun y hy => (hothers y hy).1.of_commit hs.data hg (hothers y hy).2⟩
    | revoke hr hact hid =>
      obtain ⟨ht, hk, -⟩ := of_decide_eq_true hact
      refine ⟨hs.data.revoke.reply ⟨DB.told_metadata ?_, ht, hk⟩, fun y hy => ?_⟩
      · exact DB.mem_revoke_keys.mpr ⟨_, hr, if_pos hact⟩
      · exact (hothers y hy).1.of_revoke (hid y hy)
    | same hr => exact ⟨hs.data.reply (hr hg), fun y hy => (hothers y hy).1⟩
  · exact fun s e => nomatch e

theorem sound_init : Sound hash (.init ⟨[], []⟩) :=
  ⟨⟨List.nodup_nil, fun _ h => (List.not_mem_nil h).elim, fun _ h => (List.not_mem_nil h).elim,
    List.nodup_nil, fun _ h => (List.not_mem_nil h).elim, fun _ h => (List.not_mem_nil h).elim⟩,
    fun _ h => (List.not_mem_nil h).elim, .nil⟩

section

variable (hs : Sound hash s) (h : (keyStore hash).step s l = some s')
include hs h

/-- What a step does to the rows and the replies: nothing, what `create` or `revoke` writes, or a
reply without a change. -/
theorem Sound.step_cases : (s'.db = s.db ∧ s'.log = s.log) ∨
    (∃ new now w created, w.Good s.db new now .commit ∧ s'.db = s.db.commit new now w ∧
      s'.log = (.create new now, .created (.ok created)) :: s.log) ∨
    (∃ tenantId keyId reason revokedBy now r,
      s'.db = s.db.revoke tenantId keyId reason revokedBy now ∧
      s'.log = (.revoke tenantId keyId reason revokedBy now, r) :: s.log) ∨
    (s'.db = s.db ∧ ∃ c t others r, t.Good s.db c ∧
      next hash s.db others c t = some (.done s.db r) ∧ s'.log = (c, r) :: s.log) := by
  rcases System.step_cases h with ⟨c, rfl, rfl⟩ | ⟨i, v, c, t, o, rfl, hx, ho, rfl⟩ |
    ⟨i, rfl, rfl⟩ | ⟨e, db, rfl, hdb, rfl⟩
  · exact .inl ⟨rfl, rfl⟩
  · obtain ⟨hg, hothers, -⟩ := hs.split hx
    cases o with
    | more db t' =>
      obtain ⟨rfl, -⟩ := next_more hs.data hg (fun o ho => (hothers o ho).2) ho
      exact .inl ⟨rfl, rfl⟩
    | done db r =>
      cases next_done hs.data ho with
      | commit => exact .inr (.inl ⟨_, _, _, _, hg, rfl, rfl⟩)
      | revoke => exact .inr (.inr (.inl ⟨_, _, _, _, _, _, rfl, rfl⟩))
      | same => exact .inr (.inr (.inr ⟨rfl, c, t, _, r, hg, ho, rfl⟩))
  · exact .inl ⟨rfl, rfl⟩
  · exact nomatch e

/-- A step keeps every row, or revokes it. -/
theorem Sound.step_goes : s.db.Goes s'.db := by
  rcases hs.step_cases h with ⟨hdb, -⟩ | ⟨new, now, w, _, hw, hdb, -⟩ |
    ⟨tenantId, keyId, reason, revokedBy, now, _, hdb, -⟩ | ⟨hdb, -⟩ <;> rw [hdb]
  · exact fun r hr => ⟨r, hr, .inl rfl⟩
  · exact hs.data.goes_commit hw
  · exact DB.goes_revoke
  · exact fun r hr => ⟨r, hr, .inl rfl⟩

/-- A request that has been recorded stays recorded. -/
theorem Sound.step_request (hq : q ∈ s.db.requests) : q ∈ s'.db.requests := by
  rcases hs.step_cases h with ⟨hdb, -⟩ | ⟨new, now, w, _, -, hdb, -⟩ |
    ⟨tenantId, keyId, reason, revokedBy, now, _, hdb, -⟩ | ⟨hdb, -⟩ <;> rw [hdb]
  · exact hq
  · exact DB.mem_commit_requests.mpr (.inl hq)
  · exact hq
  · exact hq

end

/-- A call asks for a key with a request id that is recorded with another payload. -/
def RequestRow.Refuses (q : RequestRow) (new : NewKey) : Prop :=
  ∃ idem, new.idempotency = some idem ∧ q.key = (new.tenantId, idem.requestId) ∧
    q.payloadFingerprint ≠ idem.fingerprint

/-- The reply to such a call is the conflict. -/
theorem Sound.step_refuses (hs : Sound hash s) (h : (keyStore hash).step s l = some s')
    (hq : q ∈ s.db.requests) :
    ∃ newer, s'.log = newer ++ s.log ∧ ∀ new now r, (.create new now, r) ∈ newer → q.Refuses new →
      r = .created (.error .requestIdConflict) := by
  rcases hs.step_cases h with ⟨-, hlog⟩ | ⟨new, now, w, _, hw, -, hlog⟩ |
    ⟨tenantId, keyId, reason, revokedBy, now, _, -, hlog⟩ | ⟨-, c, t, others, r, hg, ho, hlog⟩
  · exact ⟨[], hlog, fun _ _ _ h => (List.not_mem_nil h).elim⟩
  · refine ⟨[_], hlog, fun new' now' r hmem ⟨idem, hidem, hkey, _⟩ => ?_⟩
    obtain ⟨hc, -⟩ := Prod.mk.inj (List.mem_singleton.mp hmem)
    cases hc
    have hrec := hw.claimed nofun
    rw [NewKey.record, hidem, Option.map_some] at hrec
    exact (hw.free _ hrec q hq hkey).elim
  · refine ⟨[_], hlog, fun new' now' r hmem => ?_⟩
    obtain ⟨hc, -⟩ := Prod.mk.inj (List.mem_singleton.mp hmem)
    cases hc
  · refine ⟨[_], hlog, fun new' now' r' hmem ⟨idem, hidem, hkey, hf⟩ => ?_⟩
    obtain ⟨rfl, rfl⟩ := Prod.mk.inj (List.mem_singleton.mp hmem)
    exact (next_conflict hs.data hg hq hidem hkey hf).2 _ _ ho

theorem Sound.runs_refuses (hs : Sound hash s)
    (h : Runs (keyStore hash).step (fun _ _ => True) s ls s') (hq : q ∈ s.db.requests) :
    q ∈ s'.db.requests ∧ ∃ newer, s'.log = newer ++ s.log ∧ ∀ new now r,
    (.create new now, r) ∈ newer →
      q.Refuses new → r = .created (.error .requestIdConflict) := by
  refine (Runs.inv (P := fun s' => Sound hash s' ∧ q ∈ s'.db.requests ∧ ∃ newer,
    s'.log = newer ++ s.log ∧ ∀ new now r, (.create new now, r) ∈ newer → q.Refuses new →
      r = .created (.error .requestIdConflict)) ?_ h
    ⟨hs, hq, [], rfl, fun _ _ _ h => (List.not_mem_nil h).elim⟩).2
  rintro s₁ l s₂ ⟨hs₁, hq₁, newer, hlog, hnewer⟩ hok hstep
  obtain ⟨last, hlast, hr⟩ := hs₁.step_refuses hstep hq₁
  refine ⟨hs₁.runs (.cons hok hstep (.nil _)), hs₁.step_request hstep hq₁, last ++ newer, ?_, ?_⟩
  · rw [hlast, hlog, List.append_assoc]
  · intro new now r hmem
    rcases List.mem_append.mp hmem with hmem | hmem
    · exact hr new now r hmem
    · exact hnewer new now r hmem

/-- What holds of the key store. -/
structure KeyStoreSafe (hash : String → BitVec 64) (s : State DB Call Local Reply) : Prop where
  /-- A tenant has at most one active key for a provider. -/
  one : ∀ r ∈ s.db.keys, ∀ x ∈ s.db.keys, r.status = .active → x.status = .active →
    r.tenantId = x.tenantId → r.provider = x.provider → r = x
  /-- A key is active exactly when its material is there, and otherwise none of it is. -/
  material : ∀ r ∈ s.db.keys,
    (r.status = .active ↔ r.kekId ≠ none ∧ r.wrappedDek ≠ none ∧ r.dekNonce ≠ none ∧
      r.ciphertext ≠ none ∧ r.nonce ≠ none) ∧
    (r.status = .revoked ↔ r.kekId = none ∧ r.wrappedDek = none ∧ r.dekNonce = none ∧
      r.ciphertext = none ∧ r.nonce = none)
  /-- A revoked key stays as it is. -/
  final : ∀ r ∈ s.db.keys, r.status = .revoked → ∀ ls s',
    Runs (keyStore hash).step (fun _ _ => True) s ls s' →
    r ∈ s'.db.keys ∧ ∀ x ∈ s'.db.keys, x.keyId = r.keyId → x = r
  /-- The key that a `create` has replaced is revoked, and stored as the reply says. -/
  replaced : ∀ new now created m, (Call.create new now, Reply.created (.ok created)) ∈ s.log →
    created.replaced = some m →
    m.tenantId = new.tenantId ∧ m.status = .revoked ∧ ∃ r ∈ s.db.keys, r.metadata = m
  /-- The update of `revoke` leaves its key revoked, if it is stored by then. -/
  revokes : ∀ i tenantId keyId reason revokedBy now,
    s.threads[i]? = some (.revoke tenantId keyId reason revokedBy now, .update) →
    ∀ r ∈ s.db.keys, r.tenantId = tenantId → r.keyId = keyId →
    ∀ s', (keyStore hash).step s (.go i ()) = some s' → s'.db.Ended tenantId keyId
  /-- A `revoke` that succeeds returns its key, and if that is revoked, as it is stored. -/
  revoked : ∀ tenantId keyId reason revokedBy now m,
    (Call.revoke tenantId keyId reason revokedBy now, Reply.revoked (.ok m)) ∈ s.log →
    m.tenantId = tenantId ∧ m.keyId = keyId ∧ s.db.Told m
  /-- Two calls with one request id that succeed had one payload, and return one key. -/
  same : ∀ new now created new' now' created' idem idem',
    (Call.create new now, Reply.created (.ok created)) ∈ s.log →
    (Call.create new' now', Reply.created (.ok created')) ∈ s.log →
    new.tenantId = new'.tenantId → new.idempotency = some idem → new'.idempotency = some idem' →
    idem.requestId = idem'.requestId →
    idem.fingerprint = idem'.fingerprint ∧ created.key.keyId = created'.key.keyId
  /-- Once one has succeeded, a call with its request id and another payload does not wait, and
  every reply to such a call is the conflict. -/
  conflict : ∀ new now created idem, (Call.create new now, Reply.created (.ok created)) ∈ s.log →
    new.idempotency = some idem → ∀ ls s', Runs (keyStore hash).step (fun _ _ => True) s ls s' →
    ∀ new' now' idem', new'.tenantId = new.tenantId → new'.idempotency = some idem' →
      idem'.requestId = idem.requestId → idem'.fingerprint ≠ idem.fingerprint →
      (∀ i t, s'.threads[i]? = some (.create new' now', t) →
        ((keyStore hash).step s' (.go i ())).isSome = true) ∧
      ∃ newer, s'.log = newer ++ s.log ∧ ∀ r, (.create new' now', r) ∈ newer →
        r = .created (.error .requestIdConflict)
  /-- A statement of `create` changes no row, unless it is the one with which the call succeeds; and
  one that is given up changes none. -/
  failed : ∀ i new now t, s.threads[i]? = some (.create new now, t) →
    (∀ s', (keyStore hash).step s (.go i ()) = some s' →
      s'.db = s.db ∨ ∃ created, s'.log = (.create new now, .created (.ok created)) :: s.log) ∧
    ∀ s', (keyStore hash).step s (.abort i) = some s' → s'.db = s.db

theorem KeyRow.Consistent.material (h : r.Consistent) :
    (r.status = .active ↔ r.kekId ≠ none ∧ r.wrappedDek ≠ none ∧ r.dekNonce ≠ none ∧
      r.ciphertext ≠ none ∧ r.nonce ≠ none) ∧
    (r.status = .revoked ↔ r.kekId = none ∧ r.wrappedDek = none ∧ r.dekNonce = none ∧
      r.ciphertext = none ∧ r.nonce = none) := by
  rcases h with ⟨hs, hk, hw, hd, hc, hn, -⟩ | ⟨hs, hk, hw, hd, hc, hn, -⟩
  · simp [hs, hk, hw, hd, hc, hn]
  · simp [hs, hk, hw, hd, hc, hn]

theorem Sound.runs_revoked (hs : Sound hash s)
    (h : Runs (keyStore hash).step (fun _ _ => True) s ls s') (hr : r ∈ s.db.keys)
    (hrev : r.status = .revoked) : r ∈ s'.db.keys := by
  refine (Runs.inv (P := fun s' => Sound hash s' ∧ r ∈ s'.db.keys) ?_ h ⟨hs, hr⟩).2
  rintro s₁ l s₂ ⟨hs₁, hr₁⟩ hok hstep
  obtain ⟨x, hx, hlater⟩ := hs₁.step_goes hstep r hr₁
  exact ⟨hs₁.runs (.cons hok hstep (.nil _)), hlater.eq hrev ▸ hx⟩

/-- The update of `revoke` leaves a stored key revoked. -/
theorem update_ended
    (hx : s.threads[i]? = some (.revoke tenantId keyId reason revokedBy now, .update))
    (hr : r ∈ s.db.keys) (ht : r.tenantId = tenantId) (hk : r.keyId = keyId)
    (h : (keyStore hash).step s (.go i ()) = some s') : s'.db.Ended tenantId keyId := by
  rw [System.step, hx, Option.bind_some] at h
  obtain ⟨o, ho, rfl⟩ := Option.map_eq_some_iff.mp h
  simp only [keyStore, next] at ho
  split at ho
  · next hnone =>
    cases ho
    exact ⟨r, hr, ht, hk, KeyRow.revoked_of_not ht hk (List.find?_eq_none.mp hnone r hr)⟩
  · split_ifs at ho
    cases ho
    by_cases hact : r.isActiveKey tenantId keyId = true
    · exact ⟨_, DB.mem_revoke_keys.mpr ⟨r, hr, if_pos hact⟩, ht, hk, rfl⟩
    · exact ⟨r, DB.mem_revoke_keys.mpr ⟨r, hr, if_neg hact⟩, ht, hk,
        KeyRow.revoked_of_not ht hk hact⟩

/-- In every interleaving of `create`, `fetch_sealed`, `list` and `revoke` the key store is safe. -/
theorem key_store_safe {s : State DB Call Local Reply} {ls : List (Label Call Unit Empty)}
    (h : Runs (keyStore hash).step (fun _ _ => True) (.init ⟨[], []⟩) ls s) :
    KeyStoreSafe hash s := by
  have hs : Sound hash s := sound_init.runs h
  refine ⟨hs.data.one, fun r hr => (hs.data.consistent r hr).material,
    fun r hr hrev ls' s' h' => ?_, ?_, fun _ _ _ _ _ _ hx r hr ht hk s' => update_ended hx hr ht hk,
    fun _ _ _ _ _ m hmem => ?_, ?_, ?_, ?_⟩
  · have hr' := hs.runs_revoked h' hr hrev
    exact ⟨hr', fun x hx hid => (hs.runs h').data.keyed.eq hx hr' hid⟩
  · intro new now created m hmem hm
    obtain ⟨⟨r, hr, -, -, hrm⟩, ht, hrev⟩ := (hs.data.replies _ hmem).2.2 m hm
    exact ⟨ht, hrev, r, hr, hrm hrev⟩
  · obtain ⟨htold, ht, hk⟩ := hs.data.replies _ hmem
    exact ⟨ht, hk, htold⟩
  · intro new now created new' now' created' idem idem' hmem hmem' ht hidem hidem' hreq
    obtain ⟨q, hq, hkey, hf, hid⟩ := (hs.data.replies _ hmem).1 idem hidem
    obtain ⟨q', hq', hkey', hf', hid'⟩ := (hs.data.replies _ hmem').1 idem' hidem'
    obtain rfl := hs.data.requests.eq hq hq' (by rw [hkey, hkey', ht, hreq])
    exact ⟨hf.symm.trans hf', hid.symm.trans hid'⟩
  · intro new now created idem hmem hidem ls' s' h' new' now' idem' ht hidem' hreq hne
    obtain ⟨q, hq, hkey, hf, -⟩ := (hs.data.replies _ hmem).1 idem hidem
    have hrefuses : q.Refuses new' := ⟨idem', hidem', by rw [hkey, ht, hreq], hf ▸ hne.symm⟩
    obtain ⟨hq', newer, hlog, hnewer⟩ := hs.runs_refuses h' hq
    refine ⟨fun i t hx => ?_, newer, hlog, fun r hr => hnewer new' now' r hr hrefuses⟩
    obtain ⟨idem₁, hidem₁, hkey₁, hf₁⟩ := hrefuses
    obtain ⟨hg, -, -⟩ := (hs.runs h').split hx
    obtain ⟨o, ho⟩ : ∃ o, next hash s'.db (s'.threads.eraseIdx i) (.create new' now') t = some o :=
      (next_conflict (hs.runs h').data hg hq' hidem₁ hkey₁ hf₁).1
    rw [System.step, hx, Option.bind_some]
    simp only [keyStore, ho, Option.map_some, Option.isSome_some]
  · intro i new now t hx
    refine ⟨fun s' hstep => ?_, fun s' hstep => ?_⟩
    · obtain ⟨hg, hothers, -⟩ := hs.split hx
      rw [System.step, hx, Option.bind_some] at hstep
      obtain ⟨o, ho, rfl⟩ := Option.map_eq_some_iff.mp hstep
      cases o with
      | more db t' => exact .inl (next_more hs.data hg (fun o ho => (hothers o ho).2) ho).1
      | done db r =>
        cases next_done hs.data ho with
        | commit => exact .inr ⟨_, rfl⟩
        | same => exact .inl rfl
    · rw [← Option.some.inj hstep]

end

/-- A key for tenant 1, with a request id. -/
def someKey (keyId : Uuid) (replaceActive : Bool) (requestId : Uuid) (fingerprint : Bytes) : Call :=
  .create ⟨keyId, 1, .openAi, "main", "sk", ⟨"kek", [1], [2], [3], [4]⟩, replaceActive, "app",
    some ⟨requestId, fingerprint⟩⟩ 0

/-- A key is created, with a retry waiting for its request id, and the retry is answered with it;
then the request id is used for something else. Another key replaces it, and is revoked. -/
def rotating : List (Label Call Unit Empty) :=
  [.call (someKey 7 false 9 [5]), .go 0 (), .call (someKey 8 false 9 [5]), .go 1 (), .go 1 (),
    .go 1 (),
    .go 1 (), .go 1 (), .go 0 (), .go 0 (), .go 0 (), .call (someKey 6 true 9 [6]), .go 0 (),
      .go 0 (),
    .call (someKey 6 true 10 [6]), .go 0 (), .go 0 (), .go 0 (), .go 0 (), .go 0 (), .go 0 (),
    .call (.revoke 1 6 .compromised "app" 1), .go 0 ()]

/-- The key that a reply has, and the one that it says was replaced. -/
def Reply.ids : Reply → Option (Uuid × Option Uuid)
  | .created (.ok c) => some (c.key.keyId, c.replaced.map KeyMetadata.keyId)
  | .revoked (.ok m) => some (m.keyId, none)
  | _ => none

/-- How its calls are answered, the last one first, and the keys it ends with. -/
def rotated (s : State DB Call Local Reply) : Prop :=
  s.log.map (fun x => x.2.ids) =
    [some (6, none), some (6, some 7), none, some (7, none), some (7, none)] ∧
  s.db.keys.map (fun r => (r.keyId, r.status, r.revocationReason)) =
    [(7, .revoked, some .rotated), (6, .revoked, some .compromised)]

instance (s : State DB Call Local Reply) : Decidable (rotated s) :=
  inferInstanceAs (Decidable (_ ∧ _))

/-- In that run both keys are revoked in the end, the one by a `create` and the other by
`revoke`. -/
theorem key_store_safe_run :
    ∃ s, Runs (keyStore fun _ => 0).step (fun _ _ => True) (.init ⟨[], []⟩) rotating s ∧ rotated s ∧
      KeyStoreSafe (fun _ => 0) s := by
  have hrun : (run (keyStore fun _ => 0).step (fun _ _ => true) (.init ⟨[], []⟩) rotating).any
      (fun s => decide (rotated s)) = true := by decide +kernel
  obtain ⟨s, hs, hlog⟩ := exists_of_run hrun
  have hs := hs.weaken fun _ _ _ => trivial
  exact ⟨s, hs, hlog, key_store_safe hs⟩

end Jarvis.Vault
